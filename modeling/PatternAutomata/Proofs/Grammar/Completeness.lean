/-
What the grammar derives is read as a pattern.

Reading a phrase takes the innermost level on to the level that holds the phrase as well, and
goes on with what follows (`Derives.read`). That it is not refused on the way needs three
things: its parentheses are paired up (`Derives.paired`), its tree is at most three times as
deep as the phrase is long, and one level more (`Derives.shallow`), and no more groups are open
at a time than the phrase has characters.

Together with soundness this says that the grammar describes what can be read, and with which
trees (`parse_eq_ok_iff`).
-/
import PatternAutomata.Proofs.Grammar.Soundness

set_option autoImplicit false

namespace PatternAutomata

variable {d : Dialect} {i : Nat} {cs : List Char} {p : Phrase}

/-! ## Parentheses

Pairing goes over a text once before it is read. Over a phrase it passes without a fault, whatever
is open around the phrase and whatever follows. -/

/-- A letter or digit is no parenthesis. -/
theorem ne_paren_of_isAlphanum {c : Char} (h : c.isAlphanum = true) : c ≠ '(' ∧ c ≠ ')' := by
  constructor <;>
    · rintro rfl
      exact absurd h (by decide)

/-- A quantifier has at least one character. -/
theorem Quantifier.ne_nil {q : List Char} {b : Bounds} (h : Quantifier d q b) : q ≠ [] := by
  cases h <;> exact List.cons_ne_nil _ _

/-- There are no parentheses in a quantifier: it is a single character, or digits and a comma in
braces. -/
theorem Quantifier.ne_paren {q : List Char} {b : Bounds} (h : Quantifier d q b) :
    ∀ c ∈ q, c ≠ '(' ∧ c ≠ ')' := by
  rcases Parser.Quantifier.single_or_range h 0 with ⟨c, rfl, hc, _⟩ | ⟨body, _, _, rfl, _, hbody, _⟩
  · intro c' hc'
    obtain rfl := List.mem_singleton.1 hc'
    rcases hc with rfl | rfl | rfl <;> decide
  · intro c hc
    rcases List.mem_append.1 hc with hc | hc
    · rcases List.mem_cons.1 hc with rfl | hc
      · decide
      · rcases hbody c hc with hdecimal | rfl
        · constructor <;>
            · rintro rfl
              exact absurd hdecimal (by decide)
        · decide
    · obtain rfl := List.mem_singleton.1 hc
      decide

/-- Characters that are no parentheses are passed over. By induction on them. -/
theorem Parens.pairRest_append {q : List Char} (hq : ∀ c ∈ q, c ≠ '(' ∧ c ≠ ')') (index : Nat)
    (unclosed : List Nat) (pairs : OrdMap Nat Nat) (rest : List Char) :
    pairRest index unclosed pairs (q ++ rest) =
      pairRest (index + q.length) unclosed pairs rest := by
  induction q generalizing index with
  | nil => rfl
  | cons c q ih =>
    obtain ⟨hopen, hclose⟩ := hq c List.mem_cons_self
    rw [List.cons_append, pairRest.eq_def]
    simp only [if_neg hopen, if_neg hclose]
    rw [ih fun c' hc' => hq c' (List.mem_cons_of_mem c hc'), List.length_cons,
      Nat.add_right_comm, Nat.add_assoc]

/-- An opening parenthesis is put with those that are open. -/
theorem Parens.pairRest_open (index : Nat) (unclosed : List Nat) (pairs : OrdMap Nat Nat)
    (rest : List Char) : pairRest index unclosed pairs ('(' :: rest) =
      pairRest (index + 1) (index :: unclosed) pairs rest := by
  rw [pairRest.eq_def]
  exact if_pos rfl

/-- A closing parenthesis is paired with the last one that is open. -/
theorem Parens.pairRest_close (index opening : Nat) (unclosed : List Nat)
    (pairs : OrdMap Nat Nat) (rest : List Char) :
    pairRest index (opening :: unclosed) pairs (')' :: rest) = pairRest (index + 1) unclosed
      ((pairs.insert opening index).insert index opening) rest := by
  rw [pairRest.eq_def]
  rfl

/-- A bar is passed over. -/
theorem Parens.pairRest_bar (index : Nat) (unclosed : List Nat) (pairs : OrdMap Nat Nat)
    (rest : List Char) :
    pairRest index unclosed pairs ('|' :: rest) = pairRest (index + 1) unclosed pairs rest := by
  rw [pairRest.eq_def]
  rfl

/-- All parentheses of a phrase are paired up within it. By induction on the derivation; what
follows the phrase is left open in the statement, since the phrases inside it are followed by the
rest of it. -/
theorem Derives.paired (h : Derives d i cs p) : ∀ unclosed pairs rest, ∃ pairs',
    Parens.pairRest i unclosed pairs (cs ++ rest) =
      Parens.pairRest (i + cs.length) unclosed pairs' rest := by
  induction h with
  | letter literal =>
    intro unclosed pairs rest
    refine ⟨pairs, Parens.pairRest_append ?_ _ _ _ _⟩
    intro c hc
    rw [List.mem_singleton.1 hc]
    exact ne_paren_of_isAlphanum literal
  | @group i cs t _ ih =>
    intro unclosed pairs rest
    obtain ⟨pairs', hinner⟩ := ih (i :: unclosed) pairs (')' :: rest)
    refine ⟨(pairs'.insert i (i + 1 + cs.length)).insert (i + 1 + cs.length) i, ?_⟩
    have hsplit : '(' :: cs ++ [')'] ++ rest = '(' :: (cs ++ ')' :: rest) := by simp
    -- the closing parenthesis stands right behind the inner phrase
    have hstop : i + 1 + cs.length + 1 = i + ('(' :: cs ++ [')']).length := by
      simp only [List.length_append, List.length_cons, List.length_nil]
      omega
    rw [hsplit, Parens.pairRest_open, hinner, Parens.pairRest_close, hstop]
  | @quantified i cs q _ _ _ quantifier ih =>
    intro unclosed pairs rest
    obtain ⟨pairs', hbody⟩ := ih unclosed pairs (q ++ rest)
    refine ⟨pairs', ?_⟩
    rw [List.append_assoc, hbody, Parens.pairRest_append quantifier.ne_paren, List.length_append,
      Nat.add_assoc]
  | none => exact fun _ pairs _ => ⟨pairs, rfl⟩
  | @more i cs cs' _ _ _ _ ih ih' =>
    intro unclosed pairs rest
    obtain ⟨pairs', hrow⟩ := ih unclosed pairs (cs' ++ rest)
    obtain ⟨pairs'', hpart⟩ := ih' unclosed pairs' rest
    refine ⟨pairs'', ?_⟩
    rw [List.append_assoc, hrow, hpart, List.length_append, Nat.add_assoc]
  | option _ _ ih => exact ih
  | first _ ih => exact ih
  | @next i cs cs' _ _ _ _ _ ih ih' =>
    intro unclosed pairs rest
    obtain ⟨pairs', hfirst⟩ := ih unclosed pairs ('|' :: (cs' ++ rest))
    obtain ⟨pairs'', hnext⟩ := ih' unclosed pairs' rest
    refine ⟨pairs'', ?_⟩
    have hstop : i + cs.length + 1 + cs'.length = i + (cs ++ '|' :: cs').length := by
      simp only [List.length_append, List.length_cons]
      omega
    rw [List.append_assoc, List.cons_append, hfirst, Parens.pairRest_bar, hnext, hstop]
  | choice _ ih => exact ih

/-! ## Depth

Of the two checks on depth, the one on trees is looked at here: no tree is much deeper than its
phrase is long. Each character adds three levels at most, as a quantifier does. -/

namespace Tree

/-- The deepest of two rows of trees is the deeper of their deepest. -/
theorem greatestDepth_append (ts us : List Tree) :
    greatestDepth (ts ++ us) = max (greatestDepth ts) (greatestDepth us) := by
  induction ts with
  | nil => simp [greatestDepth]
  | cons t ts ih => rw [List.cons_append, greatestDepth, greatestDepth, ih, Nat.max_assoc]

/-- If no tree is deeper than some bound, the deepest is not. -/
theorem greatestDepth_le {ts : List Tree} {n : Nat} (h : ∀ t ∈ ts, t.depth ≤ n) :
    greatestDepth ts ≤ n := by
  induction ts with
  | nil => simp [greatestDepth]
  | cons t ts ih =>
    rw [greatestDepth]
    exact Nat.max_le.2 ⟨h t List.mem_cons_self, ih fun u hu => h u (List.mem_cons_of_mem t hu)⟩

/-- A binary choice is one deeper than the deeper of its options. -/
theorem depth_either_le (l r : Tree) (pipe : Option Int) :
    (either l r pipe).depth ≤ max l.depth r.depth + 1 := by
  rw [depth]
  split <;> omega

/-- A row of parts is one deeper than its deepest part, or as deep as its only one. -/
theorem depth_sequence_le (start stop : Nat) (ts : List Tree) :
    (sequence start stop ts).depth ≤ greatestDepth ts + 1 := by
  rw [sequence.eq_def]
  split
  · simp [greatestDepth]
  · rw [depth]
    omega

/-- A choice is no deeper than its options, and one more for each bar. A chain of options is one
level deeper for each of them; options side by side are one level deeper in all. -/
theorem depth_choice_le {start stop n : Nat} {ended : List (Tree × Nat)} {last : Tree}
    (hended : ∀ o ∈ ended, o.1.depth ≤ n) (hlast : last.depth ≤ n) :
    (choice d start stop ended last).depth ≤ n + ended.length := by
  rw [choice]
  split
  · next h => simpa [h] using hlast
  split
  · next hsome _ =>
    have hgreatest : greatestDepth (ended.map (·.1) ++ [last]) ≤ n := by
      apply greatestDepth_le
      intro t ht
      rcases List.mem_append.1 ht with ht | ht
      · obtain ⟨o, ho, rfl⟩ := List.mem_map.1 ht
        exact hended o ho
      · rwa [List.mem_singleton.1 ht]
    have hpos := List.length_pos_iff.2 hsome
    rw [depth]
    omega
  · clear * - hended hlast
    induction ended with
    | nil => simpa using hlast
    | cons o ended ih =>
      have ho := hended o List.mem_cons_self
      have hrest := ih fun o' ho' => hended o' (List.mem_cons_of_mem o ho')
      rw [List.foldr_cons, List.length_cons]
      refine Nat.le_trans (depth_either_le _ _ _) ?_
      omega

/-- A chain of two options or more is a binary choice. -/
theorem isEither_foldr_either {ended : List (Tree × Nat)} (h : ended ≠ []) (last : Tree) :
    (ended.foldr (fun o right => either o.1 right (some (o.2 : Int))) last).isEither = true := by
  cases ended with
  | nil => exact absurd rfl h
  | cons o ended => rfl

/-- A chain is one deeper than the deepest of its options, the last of which is no chain. By
induction on the options: a binary choice on the right adds no level of its own. -/
theorem depth_foldr_either {ended : List (Tree × Nat)} {last : Tree} (h : ended ≠ [])
    (hlast : last.isEither = false) :
    (ended.foldr (fun o right => either o.1 right (some (o.2 : Int))) last).depth =
      1 + greatestDepth (ended.map (·.1) ++ [last]) := by
  induction ended with
  | nil => exact absurd rfl h
  | cons o ended ih =>
    rw [List.foldr_cons, depth, List.map_cons, List.cons_append, greatestDepth]
    by_cases hnone : ended = []
    · rw [hnone, List.foldr_nil, hlast, if_neg Bool.false_ne_true, List.map_nil, List.nil_append,
        greatestDepth, greatestDepth]
      omega
    · rw [isEither_foldr_either hnone, if_pos rfl, ih hnone]
      omega

/-- Side by side or in a chain, a choice is as deep: one deeper than the deepest of its options. -/
theorem depth_choice {start stop : Nat} {ended : List (Tree × Nat)} {last : Tree}
    (h : ended ≠ []) (hlast : last.isEither = false) :
    (choice d start stop ended last).depth = 1 + greatestDepth (ended.map (·.1) ++ [last]) := by
  rw [choice, if_neg h]
  split
  · rw [depth]
  · exact depth_foldr_either h hlast

end Tree

/-- The trees of a phrase are at most so deep as its length allows. -/
def Phrase.Shallow (len : Nat) : Phrase → Prop
  | .part t => t.depth ≤ 3 * len
  | .parts ts => Tree.greatestDepth ts ≤ 3 * len
  | .option t => t.depth ≤ 3 * len + 1
  | .options ended last => ended.length ≤ len ∧ last.depth + 3 * ended.length ≤ 3 * len + 1 ∧
      ∀ o ∈ ended, o.1.depth + 3 * ended.length ≤ 3 * len + 1
  | .choice t => t.depth ≤ 3 * len + 1

/-- The trees of a phrase are at most so deep as its length allows. By induction on the derivation.
What is asked of options leaves three levels for each bar, so that the choice which is made of them
in the end, one level deeper for each bar, is not too deep. -/
theorem Derives.shallow (h : Derives d i cs p) : p.Shallow cs.length := by
  induction h with
  | letter => simp [Phrase.Shallow, Tree.depth]
  | group _ ih =>
    simp only [Phrase.Shallow, Tree.depth, List.length_append, List.length_cons,
      List.length_nil] at ih ⊢
    omega
  | quantified _ quantifier ih =>
    -- one character at least pays for the three levels
    have hpos := List.length_pos_iff.2 quantifier.ne_nil
    simp only [Phrase.Shallow, Tree.depth, List.length_append] at ih ⊢
    omega
  | none => simp [Phrase.Shallow, Tree.greatestDepth]
  | more _ _ ih ih' =>
    simp only [Phrase.Shallow, Tree.greatestDepth_append, Tree.greatestDepth,
      List.length_append] at ih ih' ⊢
    omega
  | @option i cs ts _ _ ih =>
    have hdepth := Tree.depth_sequence_le i (i + cs.length) ts
    simp only [Phrase.Shallow] at ih ⊢
    omega
  | first _ ih =>
    refine ⟨Nat.zero_le _, ?_, fun o ho => absurd ho List.not_mem_nil⟩
    simpa [Phrase.Shallow] using ih
  | @next i cs cs' ended t u _ _ ih ih' =>
    -- the bar pays for three levels, which are left to the options before it
    obtain ⟨hlen, hlast, hended⟩ := ih
    simp only [Phrase.Shallow] at ih'
    simp only [Phrase.Shallow, List.length_append, List.length_cons, List.length_nil]
    refine ⟨by omega, by omega, ?_⟩
    intro o ho
    rcases List.mem_append.1 ho with ho | ho
    · have := hended o ho
      omega
    · obtain rfl := List.mem_singleton.1 ho
      dsimp only
      omega
  | @choice i cs ended t _ ih =>
    obtain ⟨hlen, hlast, hended⟩ := ih
    -- what was left for the bars is more than one level for each of them
    have hdepth : (Tree.choice d i (i + cs.length) ended t).depth ≤
        3 * cs.length + 1 - 3 * ended.length + ended.length := by
      refine Tree.depth_choice_le ?_ (by omega)
      intro o ho
      have := hended o ho
      omega
    simp only [Phrase.Shallow]
    omega

namespace Parser

/-! ## Reading phrases

What reading a phrase does to the innermost level does not depend on what follows the phrase. So it
can be stated as a step that leads from one level to another. -/

/-- Reading some characters takes the innermost level on to another, whatever follows. -/
def Advances (d : Dialect) (outer : List Level) (index : Nat) (level : Level) (cs : List Char)
    (level' : Level) : Prop :=
  ∀ rest, readRest d index level outer (cs ++ rest) =
    readRest d (index + cs.length) level' outer rest

section Steps

variable {outer : List Level} {index : Nat} {level level' : Level} {t : Tree}

/-- No characters lead nowhere else. -/
theorem Advances.refl (level : Level) : Advances d outer index level [] level := fun _ => rfl

/-- Steps can be taken one after the other. -/
theorem Advances.trans {cs' : List Char} {level'' : Level}
    (h : Advances d outer index level cs level')
    (h' : Advances d outer (index + cs.length) level' cs' level'') :
    Advances d outer index level (cs ++ cs') level'' := by
  intro rest
  rw [List.append_assoc, h, h', List.length_append, Nat.add_assoc]

/-- A letter is put on the level. -/
theorem advances_letter {c : Char} (literal : c.isAlphanum = true) :
    Advances d outer index level [c] (level.push (.char (.ofChar c) (some index))) := by
  intro rest
  rw [List.singleton_append, readRest_letter literal, List.length_singleton]

/-- A bar ends the option in progress. -/
theorem advances_bar (h : level.bar d index = .ok level') :
    Advances d outer index level ['|'] level' := by
  intro rest
  rw [List.singleton_append, readRest_bar, h]
  rfl

/-- A tree that is not too deep passes the check. -/
theorem checkDepth_eq_ok (place : Nat) (h : (t.depth : Int) ≤ d.maxDepth) :
    checkDepth d place t = .ok t :=
  if_neg (Int.not_lt.2 h)

/-- The last part is repeated, if there is one and the repetition is not too deep. -/
theorem repeatLast_eq_ok {parts : List Tree} (b : Bounds) (q : List Char) (place : Nat)
    (hparts : level.parts = t :: parts) (hdepth : ((t.depth + 3 : Nat) : Int) ≤ d.maxDepth) :
    repeatLast d level (.ok b) q place = .ok { level with
      parts := .repeated b t (String.ofList q) (.between place (place + q.length)) :: parts } := by
  have hchecked := checkDepth_eq_ok (d := d) place
    (t := .repeated b t (String.ofList q) (.between place (place + q.length)))
    (by simpa only [Tree.depth] using hdepth)
  rw [repeatLast, hparts]
  simp only [hchecked]
  rfl

/-- A quantifier repeats the last part, whether it is one character or a range in braces. -/
theorem advances_quantifier {parts : List Tree} {q : List Char} {b : Bounds}
    (hq : Quantifier d q b) (hparts : level.parts = t :: parts)
    (hdepth : ((t.depth + 3 : Nat) : Int) ≤ d.maxDepth) :
    Advances d outer index level q { level with
      parts := .repeated b t (String.ofList q) (.between index (index + q.length)) :: parts } := by
  intro rest
  have hrepeated := repeatLast_eq_ok b q index hparts hdepth
  rcases Quantifier.single_or_range hq index with
    ⟨c, rfl, _, hb⟩ | ⟨body, lo, hi, rfl, hbounded, hbody, hcounts, hb⟩
  · rw [List.singleton_append, readRest_quantifier hb, hrepeated]
    rfl
  · have hsplit : '\x7b' :: body ++ ['\x7d'] ++ rest = '\x7b' :: (body ++ '\x7d' :: rest) := by
      simp
    rw [hsplit, readRest_brace hbounded, splitRange_eq hbody]
    dsimp only
    rw [hcounts]
    show (repeatLast d level (Bounds.ofNats lo hi) _ index >>= _) = _
    rw [hb, hrepeated]
    rfl

/-- A group that is read on a new level is put on the level around it, if one more level may be open
and the group is not too deep. -/
theorem advances_group {t : Tree} (hroom : ((outer.length + 2 : Nat) : Int) ≤ d.maxDepth)
    (hinner : Advances d (level :: outer) (index + 1) (.begin (index + 1)) cs level')
    (hstart : level'.start = index + 1) (htree : level'.tree d (index + 1 + cs.length) = .ok t)
    (hdepth : ((t.depth + 1 : Nat) : Int) ≤ d.maxDepth) :
    Advances d outer index level ('(' :: cs ++ [')'])
      (level.push (.group t (.between index (index + cs.length + 2)))) := by
  intro rest
  have hsplit : '(' :: cs ++ [')'] ++ rest = '(' :: (cs ++ ')' :: rest) := by simp
  have hstop : index + 1 + cs.length + 1 = index + cs.length + 2 := by omega
  have hchecked := checkDepth_eq_ok (d := d) (level'.start - 1)
    (t := .group t (.between (level'.start - 1) (index + 1 + cs.length + 1)))
    (by simpa only [Tree.depth] using hdepth)
  rw [hsplit, readRest_open, if_neg (Int.not_lt.2 hroom), hinner, readRest_close, htree]
  show (checkDepth d _ _ >>= _) = _
  rw [hchecked, hstart, Nat.add_sub_cancel, hstop]
  simp only [List.length_append, List.length_cons, List.length_nil]
  rfl

end Steps

/-! ## Whole patterns -/

/-- There is room for a phrase of some length within the levels that are open. -/
def Room (d : Dialect) (outer : List Level) (len : Nat) : Prop :=
  ((outer.length + 3 * len + 1 : Nat) : Int) ≤ d.maxDepth

/-- There is room for what is shorter. -/
theorem Room.mono {outer : List Level} {len len' : Nat} (h : Room d outer len)
    (hle : len' ≤ len) : Room d outer len' := by
  rw [Room] at h ⊢
  omega

/-- An option ends as the sequence of its parts. Only an option without parts may be refused. -/
theorem Level.option_eq_ok {level : Level} {ts : List Tree} (hparts : level.parts = ts.reverse)
    (hempty : ts = [] → d.allowImplicitEmpty = true) (stop : Nat) :
    level.option d stop = .ok (.sequence level.optionStart stop ts) := by
  rw [Level.option, hparts]
  rcases ts with _ | ⟨t, _ | ⟨t', ts⟩⟩
  · exact if_pos (hempty rfl)
  · rfl
  · split
    · next u hone =>
      have hlen := congrArg List.length hone
      simp at hlen
    · next hnone => exact absurd (List.reverse_eq_nil_iff.1 hnone) (List.cons_ne_nil _ _)
    · rw [List.reverse_reverse]
      rfl

/-- Reading a phrase that starts at some place brings the innermost level to where it holds
that phrase as well. -/
def ReadsOn (d : Dialect) (outer : List Level) (i : Nat) (cs : List Char) : Phrase → Prop
  | .part t => ∀ level, Advances d outer i level cs (level.push t)
  | .parts ts => ∀ level, Advances d outer i level cs
      { level with parts := ts.reverse ++ level.parts }
  | .option t => ∀ level, level.optionStart = i → level.parts = [] → ∃ level',
      Advances d outer i level cs level' ∧ level'.option d (i + cs.length) = .ok t ∧
      level'.start = level.start ∧ level'.options = level.options
  | .options ended last => ∃ level', Advances d outer i (.begin i) cs level' ∧
      level'.option d (i + cs.length) = .ok last ∧ level'.start = i ∧
      level'.options = ended.reverse
  | .choice t => ∃ level', Advances d outer i (.begin i) cs level' ∧
      level'.tree d (i + cs.length) = .ok t ∧ level'.start = i

section Phrases

variable {outer : List Level} {t u : Tree} {cs' : List Char}

/-- A group is read on the level that it opens, and closed with the tree of that level. -/
theorem ReadsOn.group (hroom : ((outer.length + 2 : Nat) : Int) ≤ d.maxDepth)
    (hinner : ∀ level, ReadsOn d (level :: outer) (i + 1) cs (.choice t))
    (hdepth : ((t.depth + 1 : Nat) : Int) ≤ d.maxDepth) :
    ReadsOn d outer i ('(' :: cs ++ [')'])
      (.part (.group t (.between i (i + cs.length + 2)))) := by
  intro level
  obtain ⟨level', hadvances, htree, hstart⟩ := hinner level
  exact advances_group hroom hadvances hstart htree hdepth

/-- A quantifier takes in the part that was read last. -/
theorem ReadsOn.quantified {q : List Char} {b : Bounds}
    (hbody : ReadsOn d outer i cs (.part t)) (hq : Quantifier d q b)
    (hdepth : ((t.depth + 3 : Nat) : Int) ≤ d.maxDepth) :
    ReadsOn d outer i (cs ++ q) (.part (.repeated b t (String.ofList q)
      (.between (i + cs.length) (i + cs.length + q.length)))) :=
  fun level => (hbody level).trans (advances_quantifier hq rfl hdepth)

/-- One more part stands before those that were read, as the last one comes first. -/
theorem ReadsOn.more {ts : List Tree} (hrow : ReadsOn d outer i cs (.parts ts))
    (hpart : ReadsOn d outer (i + cs.length) cs' (.part t)) :
    ReadsOn d outer i (cs ++ cs') (.parts (ts ++ [t])) := by
  intro level
  have hparts : (ts ++ [t]).reverse ++ level.parts = t :: (ts.reverse ++ level.parts) := by
    simp
  rw [hparts]
  exact (hrow level).trans (hpart { level with parts := ts.reverse ++ level.parts })

/-- A bar ends the option in progress, and the next option is read from behind it. -/
theorem ReadsOn.next {ended : List (Tree × Nat)}
    (hfirst : ReadsOn d outer i cs (.options ended t))
    (hnext : ReadsOn d outer (i + cs.length + 1) cs' (.option u)) :
    ReadsOn d outer i (cs ++ '|' :: cs') (.options (ended ++ [(t, i + cs.length)]) u) := by
  obtain ⟨level, hadvances, hended, hstart, hoptions⟩ := hfirst
  have hbar : level.bar d (i + cs.length) =
      .ok ⟨i, (t, i + cs.length) :: ended.reverse, i + cs.length + 1, []⟩ := by
    rw [Level.bar, hended, hstart, hoptions]
    rfl
  obtain ⟨level', hadvances', hlast, hstart', hoptions'⟩ :=
    hnext ⟨i, (t, i + cs.length) :: ended.reverse, i + cs.length + 1, []⟩ rfl rfl
  have hstop : i + cs.length + 1 + cs'.length = i + (cs ++ '|' :: cs').length := by
    simp only [List.length_append, List.length_cons]
    omega
  rw [hstop] at hlast
  refine ⟨level', hadvances.trans ((advances_bar hbar).trans hadvances'), hlast, hstart', ?_⟩
  rw [hoptions', List.reverse_append]
  rfl

end Phrases

/-- The grammar's phrases are read, if there is room for them. By induction on the derivation, one
case for each way of making a phrase. Room for a phrase is room for the phrases inside it, since
these are shorter by at least as much as there are more groups open around them; and a phrase that
there is room for is not too deep, by `Derives.shallow`. -/
theorem readsOn_of_derives (h : Derives d i cs p) :
    ∀ outer, Room d outer cs.length → ReadsOn d outer i cs p := by
  induction h with
  | letter literal => exact fun outer _ level => advances_letter literal
  | @group i cs t inner ih =>
    intro outer hroom
    have hdepth := inner.shallow
    simp only [Phrase.Shallow] at hdepth
    simp only [Room, List.length_append, List.length_cons, List.length_nil] at hroom
    -- one more level is open inside, and two characters fewer are to be read
    have hroom' : ∀ level, Room d (level :: outer) cs.length := by
      intro level
      rw [Room, List.length_cons]
      omega
    exact .group (by omega) (fun level => ih (level :: outer) (hroom' level)) (by omega)
  | @quantified i cs q t b body quantifier ih =>
    intro outer hroom
    have hdepth := body.shallow
    have hpos := List.length_pos_iff.2 quantifier.ne_nil
    simp only [Phrase.Shallow] at hdepth
    rw [List.length_append] at hroom
    have hbody := ih outer (hroom.mono (Nat.le_add_right _ _))
    rw [Room] at hroom
    exact hbody.quantified quantifier (by omega)
  | none => exact fun outer _ level => .refl level
  | more _ _ ih ih' =>
    intro outer hroom
    rw [List.length_append] at hroom
    exact (ih outer (hroom.mono (Nat.le_add_right _ _))).more
      (ih' outer (hroom.mono (Nat.le_add_left _ _)))
  | @option i cs ts _ empty ih =>
    intro outer hroom level hstart hnone
    have hrow := ih outer hroom level
    rw [hnone, List.append_nil] at hrow
    refine ⟨_, hrow, ?_, rfl, rfl⟩
    rw [← hstart]
    exact Level.option_eq_ok rfl empty _
  | first _ ih =>
    intro outer hroom
    obtain ⟨level', hadvances, hoption, hstart, hoptions⟩ := ih outer hroom (.begin _) rfl rfl
    exact ⟨level', hadvances, hoption, hstart, hoptions⟩
  | next _ _ ih ih' =>
    intro outer hroom
    rw [List.length_append, List.length_cons] at hroom
    exact (ih outer (hroom.mono (by omega))).next (ih' outer (hroom.mono (by omega)))
  | @choice i cs ended t _ ih =>
    intro outer hroom
    obtain ⟨level, hadvances, hlast, hstart, hoptions⟩ := ih outer hroom
    refine ⟨level, hadvances, ?_, hstart⟩
    rw [Level.tree_eq, hlast, hstart, hoptions, List.reverse_reverse]
    rfl

/-- A text that the grammar derives is read as the tree of its derivation, if it is short enough for
the depth that is allowed. Pairing up the parentheses succeeds, the level of the whole text advances
to its end, and the tree that is put together there is the one of the derivation. -/
theorem parse_of_derives {s : String} (h : ((3 * s.length + 1 : Nat) : Int) ≤ d.maxDepth) {t : Tree}
    (hderives : Derives d 0 s.toList (.choice t)) : parse d s = .ok t := by
  have hroom : Room d [] s.toList.length := by
    rw [Room, String.length_toList, List.length_nil, Nat.zero_add]
    exact h
  obtain ⟨pairs, hpaired⟩ := hderives.paired [] ∅ []
  obtain ⟨level, hread, htree, -⟩ := readsOn_of_derives hderives [] hroom
  have hread' := hread []
  rw [List.append_nil] at hpaired hread'
  -- the guard against a limit that does not even admit the outermost level
  have hdepth : ¬ (1 : Int) > d.maxDepth := by omega
  rw [parse, parseChars, Parens.pair, hpaired]
  show (if (1 : Int) > d.maxDepth then _ else _) = _
  rw [if_neg hdepth, hread', readRest.eq_def]
  exact htree

/-- The grammar describes what is read as a pattern, and with which trees, for a text that is short
enough for the depth that is allowed. One direction is soundness and needs no bound on the
length. -/
theorem parse_eq_ok_iff {s : String} (h : ((3 * s.length + 1 : Nat) : Int) ≤ d.maxDepth)
    (t : Tree) : parse d s = .ok t ↔ Derives d 0 s.toList (.choice t) :=
  ⟨derives_of_parse, parse_of_derives h⟩

/-- A quantifier binds its letter, then letters make a row, then bars make a choice. -/
theorem parse_eq_ok_iff_precedence : ((3 * "ab*|c".length + 1 : Nat) : Int) ≤ Dialect.maxDepth {} ∧
    Derives {} 0 "ab*|c".toList (.choice (.either
      (.concat [.char (.ofChar 'a') (some 0),
        .repeated .star (.char (.ofChar 'b') (some 1)) "*" (.between 2 3)] (.between 0 3))
      (.char (.ofChar 'c') (some 4)) (some 3))) := by
  refine ⟨by decide, (parse_eq_ok_iff (by decide) _).1 ?_⟩
  with_unfolding_all rfl

end Parser

end PatternAutomata
