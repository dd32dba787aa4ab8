/-
Where a fault is found.

A text that is no pattern is reported with the place of what is wrong in it. What stands at that
place, or before it, is what the fault is about: a parenthesis without a partner, a character that
means nothing there, a repetition with nothing before it to repeat, an option that ends where it
starts (`SyntaxError.Cause.FoundAt`).

While a text is read, the levels that are open and the characters behind the reading point say
enough for this (`Midway`): nothing has been read of an option only right behind the place where an
option may start, every group that is open starts behind a parenthesis, and the rest of the text
closes these groups and no others. Each step of reading keeps this up (`Midway.step`), so it is
there when a fault is found, however deep in groups (`found_of_readRest`).
-/
import PatternAutomata.Proofs.Grammar.Completeness
import PatternAutomata.Proofs.Grammar.Failures
import PatternAutomata.Proofs.Grammar.Pairing

set_option autoImplicit false

namespace PatternAutomata

/-! ## What stands at the place of a fault -/

namespace Parser

/-- The characters that mean something wherever braces do not: letters and digits, parentheses,
bars and repetitions of one character. -/
def isSupported (c : Char) : Bool := isLiteral c || c ∈ ['(', ')', '|', '*', '+', '?']

/-- An option starts here: the text starts here, or a group does, or a bar ended the option
before. -/
def AtStart (text : List Char) (p : Nat) : Prop :=
  p = 0 ∨ text[p - 1]? = some '(' ∨ text[p - 1]? = some '|'

/-- After every opening brace there is a closing one. -/
def BracesClosed (cs : List Char) : Prop :=
  ∀ before after, cs = before ++ '\x7b' :: after → '\x7d' ∈ after

end Parser

/-- A parenthesis has no partner. -/
def SyntaxError.Cause.isUnpaired : SyntaxError.Cause → Bool
  | unmatchedClosing | neverClosed => true
  | _ => false

/-- What makes a place of a text the place of a fault. -/
def SyntaxError.Cause.FoundAt (d : Dialect) (text : List Char) (p : Nat) :
    SyntaxError.Cause → Prop
  | unmatchedClosing => ¬Parens.Balanced text ∧ text[p]? = some ')'
  | neverClosed => ¬Parens.Balanced text ∧ text[p]? = some '('
  | unknownCharacter c => text[p]? = some c ∧ Parser.isSupported c = false ∧
      if d.boundedRepetition then c ≠ '\x7b' ∧ (c = '\x7d' → Parser.BracesClosed (text.take p))
      else ∀ c' ∈ text.take p, Parser.isSupported c' = true
  | danglingQuantifier _ =>
      (∃ c ∈ ['*', '+', '?', '\x7b'], text[p]? = some c) ∧ Parser.AtStart text p
  | emptySubexpression =>
      (p = text.length ∨ text[p]? = some ')' ∨ text[p]? = some '|') ∧ Parser.AtStart text p
  | groupsTooDeep _ => text[p]? = some '('
  | expressionTooDeep _ => ∃ c ∈ ['(', '*', '+', '?', '\x7b'], text[p]? = some c
  | rangeNeverClosed | malformedRange _ => text[p]? = some '\x7b'

/-- A fault is found at a place of the text that its cause is about. -/
def SyntaxError.Found (d : Dialect) (text : List Char) (e : SyntaxError) : Prop :=
  ∃ p : Nat, e.position = p ∧ e.cause.FoundAt d text p

namespace Parser

variable {d : Dialect} {text : List Char} {index : Nat} {level level' : Level}
  {outer outer' : List Level} {c : Char} {q rest : List Char} {e : SyntaxError}

/-! ## Braces -/

/-- An opening brace is none of them. -/
theorem ne_brace_of_isSupported (h : isSupported c = true) : c ≠ '\x7b' := by
  rintro rfl
  exact absurd h (by decide)

/-- Without characters there are no braces. -/
theorem bracesClosed_nil : BracesClosed [] := by
  intro before after h
  simp at h

/-- A character that is no opening brace needs no closing one. -/
theorem bracesClosed_singleton (hc : c ≠ '\x7b') : BracesClosed [c] := by
  intro before after h
  have hmem : '\x7b' ∈ [c] := by
    rw [h]
    simp
  exact absurd (List.mem_singleton.1 hmem).symm hc

/-- A closing brace at the end comes after all the others. -/
theorem bracesClosed_concat (cs : List Char) : BracesClosed (cs ++ ['\x7d']) := by
  intro before after h
  rcases List.eq_nil_or_concat after with rfl | ⟨after', c, rfl⟩
  · have hlast := (List.append_inj_right' h rfl)
    exact absurd hlast (by decide)
  · rw [List.concat_eq_append, ← List.cons_append, ← List.append_assoc] at h
    obtain rfl := List.singleton_inj.1 (List.append_inj_right' h rfl)
    simp

/-- Texts in which all braces are closed can be put together. -/
theorem BracesClosed.append {cs cs' : List Char} (h : BracesClosed cs) (h' : BracesClosed cs') :
    BracesClosed (cs ++ cs') := by
  intro before after heq
  rcases List.append_eq_append_iff.1 heq with ⟨early, rfl, hlate⟩ | ⟨late, hcs, hafter⟩
  · exact h' early after hlate
  · cases late with
    | nil =>
      rw [List.nil_append] at hafter
      exact h' [] after hafter.symm
    | cons c late =>
      obtain ⟨rfl, rfl⟩ := List.cons.inj hafter
      exact List.mem_append_left cs' (h before late hcs)

/-! ## On the way through a text -/

/-- What is known of a text and of the levels that are open in it when it has been read up to a
place. -/
structure Midway (d : Dialect) (text : List Char) (index : Nat) (level : Level)
    (outer : List Level) (rest : List Char) : Prop where
  index_le : index ≤ text.length
  rest_eq : text.drop index = rest
  /-- Nothing has been read of an option only where it starts. -/
  fresh : level.parts = [] → level.optionStart = index ∧ AtStart text index
  /-- Every level but the outermost starts behind a parenthesis. -/
  opened : ∀ i ∈ ((level :: outer).map Level.start).dropLast, text[i - 1]? = some '('
  /-- The rest closes every level but the outermost. -/
  closes : Parens.Closes outer.length rest
  supported : d.boundedRepetition = false → ∀ c ∈ text.take index, isSupported c = true
  braces : BracesClosed (text.take index)

namespace Midway

/-- Before anything is read, the text starts an option and no group is open. -/
theorem begin (hbalanced : Parens.Balanced text) : Midway d text 0 (.begin 0) [] text where
  index_le := Nat.zero_le _
  rest_eq := rfl
  fresh _ := ⟨rfl, .inl rfl⟩
  opened := List.forall_mem_nil _
  closes := Parens.closes_zero_iff.2 hbalanced
  supported _ := List.forall_mem_nil _
  braces := bracesClosed_nil

/-- The character that is read next stands at the reading point. -/
theorem here (hm : Midway d text index level outer (c :: rest)) : text[index]? = some c :=
  (Parens.of_drop_eq_cons hm.rest_eq).1

/-- Some characters are read, and the levels that are open then fit them. This is what all steps
below have in common. -/
theorem step (hm : Midway d text index level outer (q ++ rest))
    (hfresh : level'.parts = [] →
      level'.optionStart = index + q.length ∧ AtStart text (index + q.length))
    (hopened : ∀ i ∈ ((level' :: outer').map Level.start).dropLast, text[i - 1]? = some '(')
    (hcloses : Parens.Closes outer'.length rest)
    (hsupported : d.boundedRepetition = false → ∀ c ∈ q, isSupported c = true)
    (hbraces : BracesClosed q) :
    Midway d text (index + q.length) level' outer' rest := by
  have htake : text.take (index + q.length) = text.take index ++ q := by
    rw [List.take_add, hm.rest_eq, List.take_left]
  refine ⟨?_, ?_, hfresh, hopened, hcloses, ?_, ?_⟩
  · have hlen := congrArg List.length hm.rest_eq
    have hle := hm.index_le
    rw [List.length_drop, List.length_append] at hlen
    omega
  · rw [← List.drop_drop, hm.rest_eq, List.drop_left]
  · intro hbounded
    rw [htake, List.forall_mem_append]
    exact ⟨hm.supported hbounded, hsupported hbounded⟩
  · rw [htake]
    exact hm.braces.append hbraces

/-- One character is read that means something wherever braces do not. -/
theorem step_char (hm : Midway d text index level outer (c :: rest)) (hc : isSupported c = true)
    (hfresh : level'.parts = [] → level'.optionStart = index + 1 ∧ AtStart text (index + 1))
    (hopened : ∀ i ∈ ((level' :: outer').map Level.start).dropLast, text[i - 1]? = some '(')
    (hcloses : Parens.Closes outer'.length rest) :
    Midway d text (index + 1) level' outer' rest := by
  have hm : Midway d text index level outer ([c] ++ rest) := hm
  exact hm.step hfresh hopened hcloses (fun _ => List.forall_mem_singleton.2 hc)
    (bracesClosed_singleton (ne_brace_of_isSupported hc))

/-- An opening parenthesis starts a group, and with it an option. -/
theorem step_open (hm : Midway d text index level outer ('(' :: rest)) :
    Midway d text (index + 1) (.begin (index + 1)) (level :: outer) rest :=
  hm.step_char (by decide) (fun _ => ⟨rfl, .inr (.inl hm.here)⟩)
    (List.forall_mem_cons.2 ⟨hm.here, hm.opened⟩) (Parens.closes_open_iff.1 hm.closes)

/-- A closing parenthesis makes a part of the group, so the option around it is not empty. -/
theorem step_close {around : Level} (hm : Midway d text index level (around :: outer) (')' :: rest))
    (t : Tree) : Midway d text (index + 1) (around.push t) outer rest := by
  refine hm.step_char (by decide) ?_ (List.forall_mem_cons.1 hm.opened).2
    (Parens.closes_close_iff.1 hm.closes)
  intro hnone
  cases hnone

/-- Within a group, nothing changes but the option in progress. It is empty only behind a bar. -/
theorem step_within (hm : Midway d text index level outer (c :: rest)) (hc : isSupported c = true)
    (hopen : c ≠ '(') (hclose : c ≠ ')') (hstart : level'.start = level.start)
    (hfresh : level'.parts = [] → level'.optionStart = index + 1 ∧ c = '|') :
    Midway d text (index + 1) level' outer rest := by
  refine hm.step_char hc ?_ ?_ ((Parens.closes_other_iff hopen hclose).1 hm.closes)
  · intro hnone
    obtain ⟨hplace, rfl⟩ := hfresh hnone
    exact ⟨hplace, .inr (.inr hm.here)⟩
  · rw [List.map_cons, hstart]
    exact hm.opened

end Midway

/-! ## Steps that fail -/

/-- That a count is refused has nothing to do with how the text is formed. -/
theorem ne_malformed_of_count {cs : List Char} : count cs ≠ .error (.malformed e) := by
  rw [count]
  split <;> simp

/-- A range that is not of the right form is reported where it starts. -/
theorem eq_of_counts {place : Nat} {body : List Char}
    (h : countsOfRange place body = .error (.malformed e)) :
    e = ⟨.malformedRange (String.ofList body), place⟩ := by
  by_cases hcomma : ',' ∈ body
  · obtain ⟨low, high, rfl, hlow⟩ := List.eq_append_cons_of_mem hcomma
    rw [countsOfRange_comma hlow] at h
    split at h
    · split at h
      · exact absurd (error_of_map_eq_error h) ne_malformed_of_count
      · rcases error_of_bind_eq_error h with h | ⟨n, _, h⟩
        · exact absurd h ne_malformed_of_count
        · exact absurd (error_of_map_eq_error h) ne_malformed_of_count
    · cases h
      rfl
  · rw [countsOfRange_single hcomma] at h
    split at h
    · exact absurd (error_of_map_eq_error h) ne_malformed_of_count
    · cases h
      rfl

/-- A tree that is too deep is reported where the last character for it was read, or where its group
starts. -/
theorem found_of_checkDepth {place : Nat} {t : Tree} (hc : c ∈ ['(', '*', '+', '?', '\x7b'])
    (hplace : text[place]? = some c) (h : checkDepth d place t = .error (.malformed e)) :
    e.Found d text := by
  rw [checkDepth] at h
  split at h
  · cases h
    exact ⟨place, rfl, c, hc, hplace⟩
  · cases h

namespace Midway

/-- An option that may not be empty ends where it starts, and there an option may start and one may
end. -/
theorem found_of_option (hm : Midway d text index level outer rest)
    (hstop : index = text.length ∨ text[index]? = some ')' ∨ text[index]? = some '|') {stop : Nat}
    (h : level.option d stop = .error (.malformed e)) : e.Found d text := by
  rw [Level.option] at h
  split at h
  · cases h
  · next hnone =>
    obtain ⟨hplace, hstart⟩ := hm.fresh hnone
    split at h
    · cases h
    · cases h
      exact ⟨index, congrArg Nat.cast hplace, hstop, hstart⟩
  · cases h

/-- A level ends with an option. -/
theorem found_of_tree (hm : Midway d text index level outer rest)
    (hstop : index = text.length ∨ text[index]? = some ')' ∨ text[index]? = some '|') {stop : Nat}
    (h : level.tree d stop = .error (.malformed e)) : e.Found d text := by
  rw [Level.tree_eq] at h
  exact hm.found_of_option hstop (error_of_map_eq_error h)

/-- A repetition has nothing to repeat only where an option starts. Otherwise it is too deep, and is
reported where its character stands. -/
theorem found_of_repeatLast (hm : Midway d text index level outer (c :: rest))
    (hc : c ∈ ['*', '+', '?', '\x7b']) {bounds : Except BoundsError Bounds}
    (h : repeatLast d level bounds q index = .error (.malformed e)) : e.Found d text := by
  rw [repeatLast] at h
  split at h
  · next hnone =>
    cases h
    exact ⟨index, rfl, ⟨c, hc, hm.here⟩, (hm.fresh hnone).2⟩
  · split at h
    · cases h
    · rcases error_of_bind_eq_error h with h | ⟨t, _, h⟩
      · exact found_of_checkDepth (List.mem_cons_of_mem '(' hc) hm.here h
      · cases h

/-- A character that is refused means nothing in any dialect, or it is a brace in a dialect that has
no ranges, or a closing brace without an opening one. -/
theorem found_of_unknown (hm : Midway d text index level outer (c :: rest))
    (hc : isSupported c = false) (hbrace : ¬(c = '\x7b' ∧ d.boundedRepetition = true)) :
    SyntaxError.Found d text ⟨.unknownCharacter c, index⟩ := by
  refine ⟨index, rfl, hm.here, hc, ?_⟩
  split
  · next bounded => exact ⟨fun h => hbrace ⟨h, bounded⟩, fun _ => hm.braces⟩
  · next unbounded => exact hm.supported (by simpa using unbounded)

end Midway

/-! ## Steps that succeed -/

/-- Three characters repeat by themselves. -/
theorem boundsOfChar?_isSome : (boundsOfChar? c).isSome = true ↔ c ∈ ['*', '+', '?'] := by
  rw [boundsOfChar?]
  split_ifs <;> simp [*]

/-- The supported characters are those that reading asks for one after the other. -/
theorem isSupported_iff : isSupported c = true ↔
    isLiteral c = true ∨ c = '(' ∨ c = ')' ∨ c = '|' ∨ (boundsOfChar? c).isSome = true := by
  rw [boundsOfChar?_isSome]
  simp [isSupported]

/-- After a bar, a new option starts. -/
theorem fresh_of_bar {place : Nat} (h : level.bar d place = .ok level') :
    level'.start = level.start ∧ level'.optionStart = place + 1 := by
  obtain ⟨t, _, h⟩ := exists_of_bind_eq_ok h
  obtain rfl := Except.ok.inj h
  exact ⟨rfl, rfl⟩

/-- A repetition is a part, so there is one afterwards. -/
theorem parts_ne_nil_of_repeatLast {bounds : Except BoundsError Bounds} {place : Nat}
    (h : repeatLast d level bounds q place = .ok level') : level'.parts ≠ [] := by
  obtain ⟨_, _, _, _, _, rfl⟩ := exists_of_repeatLast h
  exact List.cons_ne_nil _ _

/-- A range that is read has no parentheses in it, so the same groups are left to close. It repeats
the latest part, so the option in progress is not empty. -/
theorem Midway.step_range {body rest' : List Char} {lo : Nat} {hi : Option Nat}
    (hm : Midway d text index level outer ('\x7b' :: rest)) (bounded : d.boundedRepetition = true)
    (hsplit : splitRange 0 rest = some (body, rest'))
    (hcounts : countsOfRange index body = .ok (lo, hi))
    (hl : repeatLast d level (Bounds.ofNats lo hi) ('\x7b' :: body ++ ['\x7d']) index =
      .ok level') :
    Midway d text (index + ('\x7b' :: body ++ ['\x7d']).length) level' outer rest' := by
  obtain ⟨b, _, _, hb, _⟩ := exists_of_repeatLast hl
  have hq := (quantifier_of_counts bounded hcounts hb).ne_paren
  have hrest : '\x7b' :: rest = '\x7b' :: body ++ ['\x7d'] ++ rest' := by
    rw [eq_append_of_splitRange hsplit]
    simp
  rw [hrest] at hm
  refine hm.step (fun hnone => absurd hnone (parts_ne_nil_of_repeatLast hl)) ?_
    ((Parens.closes_append_iff hq).1 hm.closes) ?_ (bracesClosed_concat _)
  · rw [List.map_cons, start_of_repeatLast hl]
    exact hm.opened
  · intro unbounded
    rw [bounded] at unbounded
    cases unbounded

/-! ## Reading -/

/-- Whatever was read before, a fault in the rest of a text is found where it is. By induction on
the calls: each of them either finds a fault at the reading point, or goes on from where `Midway`
still holds. -/
theorem found_of_readRest (hm : Midway d text index level outer rest)
    (h : readRest d index level outer rest = .error (.malformed e)) : e.Found d text := by
  fun_induction readRest d index level outer rest with
  | case1 index level =>
    have hstop : index = text.length :=
      Nat.le_antisymm hm.index_le (List.drop_eq_nil_iff.1 hm.rest_eq)
    exact hm.found_of_tree (.inl hstop) h
  -- a text that ends here would leave a group open
  | case2 index level around outer => exact absurd (Parens.closes_nil_iff.1 hm.closes) (by simp)
  | case3 index level outer rest _ =>
    cases h
    exact ⟨index, rfl, hm.here⟩
  -- a group is opened
  | case4 index level outer rest _ ih => exact ih hm.step_open h
  -- the rest closes no more than what is open
  | case5 index level rest => exact absurd hm.closes Parens.not_closes_stray
  -- a group is closed: its option may be empty, or the group may be too deep
  | case6 index level rest around outer _ ih =>
    rcases error_of_bind_eq_error h with h | ⟨inner, _, h⟩
    · exact hm.found_of_tree (.inr (.inl hm.here)) h
    rcases error_of_bind_eq_error h with h | ⟨t, _, h⟩
    · have hopen : text[level.start - 1]? = some '(' := (List.forall_mem_cons.1 hm.opened).1
      exact found_of_checkDepth List.mem_cons_self hopen h
    · exact ih t (hm.step_close _) h
  -- a letter or a digit
  | case7 index level outer c rest hopen hclose literal ih =>
    refine ih (hm.step_within (isSupported_iff.2 (.inl literal)) hopen hclose rfl ?_) h
    intro hnone
    cases hnone
  -- a bar: the option before it may be empty
  | case8 index level outer rest _ _ _ ih =>
    rcases error_of_bind_eq_error h with h | ⟨l, hl, h⟩
    · rcases error_of_bind_eq_error h with h | ⟨t, _, h⟩
      · exact hm.found_of_option (.inr (.inr hm.here)) h
      · cases h
    · obtain ⟨hstart, hfresh⟩ := fresh_of_bar hl
      exact ih l (hm.step_within (by decide) (by decide) (by decide) hstart
        fun _ => ⟨hfresh, rfl⟩) h
  | case9 index level outer c rest _ _ _ _ hbrace _ =>
    cases h
    obtain ⟨rfl, -⟩ := hbrace
    exact ⟨index, rfl, hm.here⟩
  -- a range in braces: it may be malformed, or repeat nothing, or nest too deeply
  | case10 index level outer c rest _ _ _ _ hbrace body rest' hsplit _ ih =>
    obtain ⟨rfl, bounded⟩ := hbrace
    rcases error_of_bind_eq_error h with h | ⟨⟨lo, hi⟩, hcounts, h⟩
    · obtain rfl := eq_of_counts h
      exact ⟨index, rfl, hm.here⟩
    rcases error_of_bind_eq_error h with h | ⟨l, hl, h⟩
    · exact hm.found_of_repeatLast (by decide) h
    · exact ih l (hm.step_range bounded hsplit hcounts hl) h
  -- a repetition of one character
  | case11 index level outer c rest hopen hclose _ _ _ b hb ih =>
    have hsome : (boundsOfChar? c).isSome = true := by rw [hb, Option.isSome_some]
    rcases error_of_bind_eq_error h with h | ⟨l, hl, h⟩
    · have hc : c ∈ ['*', '+', '?'] ++ ['\x7b'] :=
        List.mem_append_left _ (boundsOfChar?_isSome.1 hsome)
      exact hm.found_of_repeatLast hc h
    · have hc : isSupported c = true := by simp [isSupported_iff, hsome]
      exact ih l (hm.step_within hc hopen hclose (start_of_repeatLast hl)
        fun hnone => absurd hnone (parts_ne_nil_of_repeatLast hl)) h
  -- any other character
  | case12 index level outer c rest hopen hclose hletter hbar hbrace hnone =>
    cases h
    have hc : ¬isSupported c = true := by
      rw [isSupported_iff, hnone]
      simp [hopen, hclose, hletter, hbar]
    exact hm.found_of_unknown (Bool.eq_false_iff.2 hc) hbrace

/-! ## Whole texts -/

/-- A parenthesis that the pass finds to be without a partner is reported as such, where it
stands. -/
theorem found_of_pair {cs : List Char} (h : Parens.pair cs = .error e) :
    e.Found d cs ∧ e.cause.isUnpaired = true := by
  have hbalanced : ¬Parens.Balanced cs := by
    intro hbalanced
    obtain ⟨pairs, hpairs⟩ := Parens.exists_pair_iff.2 hbalanced
    rw [h] at hpairs
    cases hpairs
  cases Parens.unpaired_of_pair h with
  | @closing p found => exact ⟨⟨p, rfl, hbalanced, found⟩, rfl⟩
  | @opening p found => exact ⟨⟨p, rfl, hbalanced, found⟩, rfl⟩

/-- A text whose parentheses are paired up is balanced, so reading starts midway at its
beginning. -/
theorem found_of_parseChars {cs : List Char} (hdepth : 1 ≤ d.maxDepth)
    (h : parseChars d cs = .error (.malformed e)) : e.Found d cs := by
  rw [parseChars] at h
  cases hpair : Parens.pair cs with
  | error fault =>
    rw [hpair] at h
    cases h
    exact (found_of_pair hpair).1
  | ok pairs =>
    have hbalanced : Parens.Balanced cs := Parens.exists_pair_iff.1 ⟨pairs, hpair⟩
    rw [hpair] at h
    change (if (1 : Int) > d.maxDepth then _ else _) = _ at h
    rw [if_neg (Int.not_lt.2 hdepth)] at h
    exact found_of_readRest (.begin hbalanced) h

/-- If a parenthesis without a partner is found, the text is not balanced. -/
theorem not_balanced_of_found {cs : List Char} (h : e.Found d cs)
    (hcause : e.cause.isUnpaired = true) : ¬Parens.Balanced cs := by
  obtain ⟨cause, position⟩ := e
  obtain ⟨p, _, hfound⟩ := h
  cases cause with
  | unmatchedClosing | neverClosed => exact hfound.1
  | _ => cases hcause

/-- Whatever the text and the dialect, a parenthesis is reported to have no partner exactly when the
parentheses are not balanced, and at the place that is reported stands what is at fault. -/
theorem found_of_parse (hdepth : 1 ≤ d.maxDepth) (s : String) :
    ((∃ e, parse d s = .error (.malformed e) ∧ e.cause.isUnpaired = true) ↔
      ¬Parens.Balanced s.toList) ∧
    ∀ e, parse d s = .error (.malformed e) →
      ∃ p : Nat, e.position = p ∧ e.cause.FoundAt d s.toList p := by
  refine ⟨⟨?_, ?_⟩, fun e h => found_of_parseChars hdepth h⟩
  · rintro ⟨e, h, hcause⟩
    exact not_balanced_of_found (found_of_parseChars hdepth h) hcause
  · intro hbalanced
    cases hpair : Parens.pair s.toList with
    | ok pairs => exact absurd (Parens.exists_pair_iff.1 ⟨pairs, hpair⟩) hbalanced
    | error fault =>
      refine ⟨fault, ?_, (found_of_pair (d := d) hpair).2⟩
      rw [parse, parseChars, hpair]
      rfl

/-- The bar in `a(b|)` ends an option, and the next one ends where it starts. -/
theorem found_of_parse_emptyOption : (1 : Int) ≤ Dialect.maxDepth { allowImplicitEmpty := false } ∧
    parse { allowImplicitEmpty := false } "a(b|)" = .error (.malformed ⟨.emptySubexpression, 4⟩) ∧
    ∃ p : Nat, (4 : Int) = p ∧ SyntaxError.Cause.FoundAt { allowImplicitEmpty := false }
      "a(b|)".toList p .emptySubexpression := by
  have hparse : parse { allowImplicitEmpty := false } "a(b|)" =
      .error (.malformed ⟨.emptySubexpression, 4⟩) := by
    with_unfolding_all rfl
  exact ⟨by decide, hparse, (found_of_parse (by decide) "a(b|)").2 _ hparse⟩

end Parser

end PatternAutomata
