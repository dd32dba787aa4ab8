/-
What is read as a pattern is one.

A level that is still open holds what the grammar derives from the characters that were read of
it: its finished options, and the parts of the option in progress (`Level.Reads`). Each step of
reading adds a phrase to the innermost level or opens or closes one, so the levels go on to hold
what was read (`derives_of_readRest`), and what is read in the end is a choice.
-/
import PatternAutomata.Proofs.Grammar.Ranges
import PatternAutomata.Proofs.Structure.Outcomes

set_option autoImplicit false

namespace PatternAutomata

namespace Parser

variable {d : Dialect} {l : Level} {t : Tree}

/-- A tree that passes the check is returned as it is. -/
theorem eq_of_checkDepth {place : Nat} {u : Tree} (h : checkDepth d place t = .ok u) :
    u = t := by
  rw [checkDepth] at h
  split at h
  · cases h
  · exact (Except.ok.inj h).symm

/-! ## Open levels -/

/-- Options that are ended by a bar were read from a place on, if there are any. -/
def Ended (d : Dialect) (start : Nat) (options : List (Tree × Nat)) (cs : List Char) : Prop :=
  (options = [] ∧ cs = []) ∨ ∃ before ended last, Derives d start before (.options ended last) ∧
    options = ended ++ [(last, start + before.length)] ∧ cs = before ++ ['|']

/-- A level holds what was read from its start on: ended options and the parts of one more. -/
def Level.Reads (d : Dialect) (l : Level) (cs : List Char) : Prop :=
  ∃ before current, cs = before ++ current ∧ Ended d l.start l.options.reverse before ∧
    l.optionStart = l.start + before.length ∧
    Derives d l.optionStart current (.parts l.parts.reverse)

/-- Nothing has been read of a level that was just opened. -/
theorem Level.Reads.begin (start : Nat) : (Level.begin start).Reads d [] :=
  ⟨[], [], rfl, Or.inl ⟨rfl, rfl⟩, rfl, .none⟩

/-- A part that follows is put on the level. -/
theorem Level.Reads.push {cs cs' : List Char} (hl : l.Reads d cs)
    (ht : Derives d (l.start + cs.length) cs' (.part t)) : (l.push t).Reads d (cs ++ cs') := by
  obtain ⟨before, current, rfl, hended, hstart, hparts⟩ := hl
  refine ⟨before, current ++ cs', List.append_assoc .., hended, hstart, ?_⟩
  rw [List.length_append, ← Nat.add_assoc, ← hstart] at ht
  have hrow := hparts.more ht
  rwa [← List.reverse_cons] at hrow

/-- The option in progress ends here. It has one part, or none, or several, and the tree that is
made of it is the one of the grammar in each case. -/
theorem Level.Reads.option {cs : List Char} (hl : l.Reads d cs)
    (h : l.option d (l.start + cs.length) = .ok t) :
    Derives d l.start cs (.options l.options.reverse t) := by
  obtain ⟨before, current, rfl, hended, hstart, hparts⟩ := hl
  have hoption : Derives d l.optionStart current (.option t) := by
    have hstop : l.start + (before ++ current).length = l.optionStart + current.length := by
      rw [List.length_append, hstart, Nat.add_assoc]
    rw [Level.option, hstop] at h
    split at h
    · next u heq =>
      rw [heq] at hparts
      obtain rfl := Except.ok.inj h
      exact hparts.option nofun
    · next heq =>
      rw [heq] at hparts
      split at h
      · next hempty =>
        obtain rfl := Except.ok.inj h
        exact hparts.option fun _ => hempty
      · cases h
    · next hone hnone =>
      obtain rfl := Except.ok.inj h
      have hseq : Tree.sequence l.optionStart (l.optionStart + current.length) l.parts.reverse =
          .concat l.parts.reverse (.between l.optionStart (l.optionStart + current.length)) := by
        rw [Tree.sequence]
        intro u hu
        exact hone u (List.reverse_eq_iff.1 hu)
      rw [← hseq]
      exact hparts.option fun hnil => absurd (List.reverse_eq_nil_iff.1 hnil) hnone
  -- whether it is the first option of the level or follows a bar
  rcases hended with ⟨hnone, rfl⟩ | ⟨first, ended, last, hoptions, hall, rfl⟩
  · rw [hnone]
    rw [List.length_nil, Nat.add_zero] at hstart
    rw [List.nil_append, ← hstart]
    exact hoption.first
  · rw [hall, List.append_assoc, List.singleton_append]
    rw [List.length_append, List.length_singleton, ← Nat.add_assoc] at hstart
    rw [hstart] at hoption
    exact hoptions.next hoption

/-- A bar ends the option in progress, and the next one has no parts yet. -/
theorem Level.Reads.bar {cs : List Char} {l' : Level} (hl : l.Reads d cs)
    (h : l.bar d (l.start + cs.length) = .ok l') : l'.Reads d (cs ++ ['|']) := by
  obtain ⟨t, ht, h⟩ := exists_of_bind_eq_ok h
  obtain rfl := Except.ok.inj h
  refine ⟨cs ++ ['|'], [], (List.append_nil _).symm, Or.inr ⟨cs, _, t, hl.option ht, ?_, rfl⟩, ?_,
    .none⟩
  · exact List.reverse_cons
  · rw [List.length_append, List.length_singleton, Nat.add_assoc]

/-- Folding from the latest option on makes the chain of all options. -/
theorem choice_eq_of_tree {start stop : Nat} {options : List (Tree × Nat)} {last : Tree} :
    (if options.isEmpty then .ok last
      else if d.variadicAlternatives then
        .ok (.anyOf (options.reverse.map (·.1) ++ [last])
          (options.reverse.map fun o => some (o.2 : Int)) (.between start stop))
      else .ok (options.foldl (fun right o => .either o.1 right (some o.2)) last) :
        Except ParseError Tree) = .ok (.choice d start stop options.reverse last) := by
  rw [Tree.choice, List.foldr_reverse]
  by_cases hnone : options = []
  · rw [if_pos (List.isEmpty_iff.2 hnone), if_pos (List.reverse_eq_nil_iff.2 hnone)]
  · rw [if_neg (fun h => hnone (List.isEmpty_iff.1 h)),
      if_neg (fun h => hnone (List.reverse_eq_nil_iff.1 h))]
    split <;> rfl

/-- The tree of a level is the choice between its options. -/
theorem Level.tree_eq (l : Level) (stop : Nat) : l.tree d stop =
    (l.option d stop).map fun last => .choice d l.start stop l.options.reverse last := by
  rw [Level.tree]
  cases l.option d stop with
  | error e => rfl
  | ok last => exact choice_eq_of_tree

/-- A level that ends has an option that ends. -/
theorem exists_option_of_tree {stop : Nat} (h : l.tree d stop = .ok t) :
    ∃ last, l.option d stop = .ok last ∧ t = .choice d l.start stop l.options.reverse last := by
  rw [Level.tree_eq] at h
  cases hlast : l.option d stop with
  | error e =>
    rw [hlast] at h
    cases h
  | ok last =>
    rw [hlast] at h
    exact ⟨last, rfl, (Except.ok.inj h).symm⟩

/-- So the tree of a level is derived from all that was read of it. -/
theorem Level.Reads.tree {cs : List Char} (hl : l.Reads d cs)
    (h : l.tree d (l.start + cs.length) = .ok t) : Derives d l.start cs (.choice t) := by
  obtain ⟨last, hlast, rfl⟩ := exists_option_of_tree h
  exact (hl.option hlast).choice

/-- A repetition takes the place of the latest part. -/
theorem exists_of_repeatLast {bounds : Except BoundsError Bounds} {q : List Char} {place : Nat}
    {l' : Level} (h : repeatLast d l bounds q place = .ok l') : ∃ b body parts,
      bounds = .ok b ∧ l.parts = body :: parts ∧ l' = { l with
        parts := .repeated b body (String.ofList q) (.between place (place + q.length)) ::
          parts } := by
  rw [repeatLast] at h
  split at h
  · cases h
  · next body parts hparts =>
    split at h
    · cases h
    · obtain ⟨u, hu, h⟩ := exists_of_bind_eq_ok h
      obtain rfl := Except.ok.inj h
      obtain rfl := eq_of_checkDepth hu
      exact ⟨_, body, parts, rfl, hparts, rfl⟩

/-- A quantifier takes in the latest part. -/
theorem Level.Reads.repeatLast {cs q : List Char} {b : Bounds} {l' : Level} (hl : l.Reads d cs)
    (hq : Quantifier d q b)
    (h : repeatLast d l (.ok b) q (l.start + cs.length) = .ok l') : l'.Reads d (cs ++ q) := by
  obtain ⟨b', body, parts, hb, heq, rfl⟩ := exists_of_repeatLast h
  obtain rfl := Except.ok.inj hb
  obtain ⟨before, current, rfl, hended, hstart, hparts⟩ := hl
  rw [heq] at hparts
  obtain ⟨row, last, rfl, hrow, hlast⟩ := hparts.parts_concat List.reverse_cons
  refine ⟨before, row ++ (last ++ q), ?_, hended, hstart, ?_⟩
  · simp only [List.append_assoc]
  · have hplace : l.start + (before ++ (row ++ last)).length =
        l.optionStart + row.length + last.length := by
      simp only [List.length_append]
      omega
    rw [hplace, List.reverse_cons]
    exact hrow.more (hlast.quantified hq)

/-- A repetition changes the latest part only. -/
theorem start_of_repeatLast {bounds : Except BoundsError Bounds} {q : List Char} {place : Nat}
    {l' : Level} (h : repeatLast d l bounds q place = .ok l') : l'.start = l.start := by
  obtain ⟨_, _, _, _, _, rfl⟩ := exists_of_repeatLast h
  rfl

/-! ## Levels around levels -/

/-- Levels that are open around another one hold what was read up to the parenthesis that opens
it. -/
inductive Enclosed (d : Dialect) : List Level → List Char → Prop where
  | whole : Enclosed d [] []
  | group {l : Level} {outer : List Level} {before cs : List Char} (around : Enclosed d outer before)
      (start_eq : l.start = before.length) (reads : l.Reads d cs) :
      Enclosed d (l :: outer) (before ++ cs ++ ['('])

/-- A group that is closed is a part of the level around it, and starts at the parenthesis that
opened it. -/
theorem Level.Reads.close {around : Level} {inside cs : List Char} {inner : Tree}
    (haround : around.Reads d inside) (hstart : l.start = around.start + inside.length + 1)
    (hl : l.Reads d cs) (hinner : l.tree d (l.start + cs.length) = .ok inner) :
    (around.push (.group inner (.between (l.start - 1) (l.start + cs.length + 1)))).Reads d
      (inside ++ ('(' :: cs ++ [')'])) := by
  have hinside := hl.tree hinner
  rw [hstart] at hinside
  have hstop : l.start + cs.length + 1 = around.start + inside.length + cs.length + 2 := by omega
  rw [hstop, hstart, Nat.add_sub_cancel]
  exact haround.push hinside.group

/-- What reading the next character can do: it opens a group, it closes the innermost one, or the
innermost level takes in one more phrase. -/
theorem readRest_cons {index : Nat} {outer : List Level} {cs : List Char} {c : Char}
    {rest : List Char} (hl : l.Reads d cs) (hindex : index = l.start + cs.length)
    (h : readRest d index l outer (c :: rest) = .ok t) :
    (c = '(' ∧ readRest d (index + 1) (.begin (index + 1)) (l :: outer) rest = .ok t) ∨
    (c = ')' ∧ ∃ around outer' inner, outer = around :: outer' ∧ l.tree d index = .ok inner ∧
      readRest d (index + 1) (around.push (.group inner (.between (l.start - 1) (index + 1))))
        outer' rest = .ok t) ∨
    ∃ q rest' l', q ≠ [] ∧ c :: rest = q ++ rest' ∧ l'.Reads d (cs ++ q) ∧ l'.start = l.start ∧
      readRest d (index + q.length) l' outer rest' = .ok t := by
  subst hindex
  unfold readRest at h
  split at h
  · next hopen =>
    split at h
    · cases h
    · exact Or.inl ⟨hopen, h⟩
  split at h
  · next hclose =>
    split at h
    · cases h
    · next around outer' =>
      obtain ⟨inner, hinner, h⟩ := exists_of_bind_eq_ok h
      obtain ⟨u, hu, h⟩ := exists_of_bind_eq_ok h
      obtain rfl := eq_of_checkDepth hu
      exact Or.inr (Or.inl ⟨hclose, around, outer', inner, rfl, hinner, h⟩)
  -- all other characters belong to a phrase on the innermost level
  refine Or.inr (Or.inr ?_)
  split at h
  · next hliteral =>
    exact ⟨[c], rest, _, List.cons_ne_nil _ _, rfl, hl.push (.letter hliteral), rfl, h⟩
  split at h
  · next hbar =>
    obtain ⟨l', hl', h⟩ := exists_of_bind_eq_ok h
    -- where the level starts is not changed by ending an option of it
    have hread := hl.bar hl'
    obtain ⟨_, _, hl'⟩ := exists_of_bind_eq_ok hl'
    obtain rfl := Except.ok.inj hl'
    rw [← hbar] at hread
    exact ⟨[c], rest, _, List.cons_ne_nil _ _, rfl, hread, rfl, h⟩
  split at h
  · next hbrace =>
    split at h
    · cases h
    · next body rest' hsplit =>
      obtain ⟨⟨lo, hi⟩, hcounts, h⟩ := exists_of_bind_eq_ok h
      obtain ⟨l', hl', h⟩ := exists_of_bind_eq_ok h
      obtain ⟨b, _, _, hb, _⟩ := exists_of_repeatLast hl'
      rw [hb] at hl'
      -- the whole range is one quantifier, so several characters are read at once
      refine ⟨'\x7b' :: body ++ ['\x7d'], rest', l', List.cons_ne_nil _ _, ?_,
        hl.repeatLast (quantifier_of_counts hbrace.2 hcounts hb) hl', start_of_repeatLast hl', h⟩
      rw [eq_append_of_splitRange hsplit, hbrace.1]
      simp only [List.append_assoc, List.cons_append, List.nil_append]
  · split at h
    · next b hb =>
      obtain ⟨l', hl', h⟩ := exists_of_bind_eq_ok h
      exact ⟨[c], rest, l', List.cons_ne_nil _ _, rfl,
        hl.repeatLast (quantifier_of_char hb) hl', start_of_repeatLast hl', h⟩
    · cases h

/-- When all is read, the whole text is a choice. The level that is read on holds what was read of
it, and the levels around it hold what was read before; each step leads to levels that hold more of
the text, until there is one level that holds all of it. -/
theorem derives_of_readRest {index : Nat} {outer : List Level} {before cs rest : List Char}
    (houter : Enclosed d outer before) (hstart : l.start = before.length) (hl : l.Reads d cs)
    (hindex : index = l.start + cs.length) (h : readRest d index l outer rest = .ok t) :
    Derives d 0 (before ++ cs ++ rest) (.choice t) := by
  -- a range takes in several characters at once, so the induction is on the length
  induction hn : rest.length using Nat.strongRecOn
    generalizing index l outer before cs rest with
  | _ n ih =>
    cases rest with
    | nil =>
      unfold readRest at h
      cases houter with
      | whole =>
        rw [hindex] at h
        rw [List.append_nil, List.nil_append]
        have hderives := hl.tree h
        rwa [hstart] at hderives
      | group => cases h
    | cons c rest =>
      have hrest : rest.length < n := by
        rw [← hn, List.length_cons]
        omega
      rcases readRest_cons hl hindex h with ⟨rfl, hread⟩ |
        ⟨rfl, around, outer', inner, rfl, hinner, hread⟩ |
        ⟨q, rest', l', hq, hsplit, hl', hstart', hread⟩
      · -- the level that was innermost goes to those around the new one
        have hplace : (Level.begin (index + 1)).start = (before ++ cs ++ ['(']).length := by
          simp only [Level.begin, List.length_append, List.length_singleton]
          omega
        have hderives := ih _ hrest (.group houter hstart hl) hplace (.begin _)
          (Nat.add_zero _).symm hread rfl
        simpa only [List.append_assoc, List.cons_append, List.nil_append] using hderives
      · -- the closed group goes to the level around it
        cases houter with
        | @group _ _ before inside houter hplace haround =>
          simp only [List.length_append, List.length_singleton] at hstart
          rw [hindex] at hinner hread
          have hgroup := haround.close (by omega) hl hinner
          have hplace' : l.start + cs.length + 1 = around.start +
              (inside ++ ('(' :: cs ++ [')'])).length := by
            simp only [List.length_append, List.length_cons, List.length_nil]
            omega
          have hderives := ih _ hrest houter (by exact hplace) hgroup hplace' hread rfl
          simpa only [List.append_assoc, List.cons_append, List.nil_append] using hderives
      · have hshort : rest'.length < n := by
          have hlen := congrArg List.length hsplit
          have hpos := List.length_pos_iff.2 hq
          rw [List.length_append] at hlen
          omega
        rw [hsplit, ← List.append_assoc, List.append_assoc before]
        refine ih _ hshort houter (hstart'.trans hstart) hl' ?_ hread rfl
        rw [hindex, hstart', List.length_append, Nat.add_assoc]

/-- What is read as a pattern is derived by the grammar, with the tree that is read. -/
theorem derives_of_parse {s : String} (h : parse d s = .ok t) :
    Derives d 0 s.toList (.choice t) := by
  rw [parse, parseChars] at h
  obtain ⟨_, _, h⟩ := exists_of_bind_eq_ok h
  split at h
  · cases h
  · exact derives_of_readRest .whole rfl (.begin 0) rfl h

end Parser

end PatternAutomata
