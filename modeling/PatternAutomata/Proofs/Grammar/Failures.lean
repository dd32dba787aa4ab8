/-
How reading can fail.

A text that is no pattern is reported as such, with the text; and two numbers in braces that are
no range are refused as a range. That is all that should be refused (`ParseError.Documented`). It
is not all that is: a count is recognised by the wider class of digits and read by the narrower
one, so a count with a digit that is not decimal is taken for a number and then cannot be read
(`not_documented_superscript`). Reading fails in no other way (`Parser.documented_or_numeral`).

A failure is due to something that stands in the text, and what stands in a part of a text stands
in the text (`ParseError.Due.mono`). So it is enough to say what each step of reading can fail
for, and to follow the steps.
-/
import PatternAutomata.Proofs.Grammar.Ranges

set_option autoImplicit false

namespace PatternAutomata

/-! ## What reading fails for -/

/-- Two numbers with a comma between them stand in braces, and the second is the smaller. -/
inductive InvertedRange (d : Dialect) (cs : List Char) (lo hi : Nat) : Prop where
  | intro {low high : List Char} (bounded : d.boundedRepetition = true)
      (found : '\x7b' :: (low ++ ',' :: high) ++ ['\x7d'] <:+: cs) (least : Numeral low lo)
      (greatest : Numeral high hi) (inverted : hi < lo)

/-- A row of digits stands in braces, and one of them is no decimal digit. -/
inductive LoneCount (d : Dialect) (cs digits : List Char) : Prop where
  | intro {body : List Char} (bounded : d.boundedRepetition = true)
      (found : '\x7b' :: body ++ ['\x7d'] <:+: cs) (part : digits <:+: body)
      (isDigit : ∀ c ∈ digits, Text.isDigit c = true) (lone : ∃ c ∈ digits, Text.isDecimal c = false)

namespace ParseError

/-- A failure is due to something in the text: two numbers that are no range, or a count that
writes no number. What is wrong with a malformed text is left open here. -/
inductive Due (d : Dialect) (cs : List Char) : ParseError → Prop where
  | malformed (fault : SyntaxError) : Due d cs (.malformed fault)
  | range {lo hi : Nat} (inverted : InvertedRange d cs lo hi) : Due d cs (.range (.inverted lo hi))
  | numeral {digits : List Char} (count : LoneCount d cs digits) :
      Due d cs (.numeral (String.ofList digits))

/-- What a failure is due to stands in every text that the text is part of. -/
theorem Due.mono {d : Dialect} {cs cs' : List Char} {e : ParseError} (h : e.Due d cs)
    (hsub : cs <:+: cs') : e.Due d cs' := by
  cases h with
  | malformed fault => exact .malformed fault
  | range inverted =>
    obtain ⟨bounded, found, least, greatest, lt⟩ := inverted
    exact .range ⟨bounded, found.trans hsub, least, greatest, lt⟩
  | numeral count =>
    obtain ⟨bounded, found, part, isDigit, lone⟩ := count
    exact .numeral ⟨bounded, found.trans hsub, part, isDigit, lone⟩

end ParseError

namespace Parser

variable {d : Dialect} {cs : List Char} {e : ParseError}

/-- A computation that fails does so in its first step or after it. All steps of reading are put
together in this way. -/
theorem error_of_bind_eq_error {α β : Type} {x : Except ParseError α}
    {f : α → Except ParseError β} (h : (x >>= f) = .error e) :
    x = .error e ∨ ∃ a, x = .ok a ∧ f a = .error e := by
  cases x with
  | ok a => exact Or.inr ⟨a, rfl, h⟩
  | error e' =>
    obtain rfl := Except.error.inj h
    exact Or.inl rfl

/-- What is only changed afterwards fails by itself. -/
theorem error_of_map_eq_error {α β : Type} {x : Except ParseError α} {f : α → β}
    (h : x.map f = .error e) : x = .error e := by
  cases x with
  | ok a => cases h
  | error e' =>
    obtain rfl := Except.error.inj h
    rfl

/-! ## Ranges -/

/-- A count that cannot be read has a digit that is not decimal. It was found to be made of digits
before it was read, so this is the only way in which reading it can fail. -/
theorem due_of_count {body digits : List Char} (bounded : d.boundedRepetition = true)
    (found : '\x7b' :: body ++ ['\x7d'] <:+: cs) (part : digits <:+: body)
    (hform : isCount digits = true) (h : count digits = .error e) : e.Due d cs := by
  rw [isCount, Bool.and_eq_true, List.all_eq_true] at hform
  rw [count] at h
  split at h
  · cases h
  · next hnone =>
    obtain rfl := Except.error.inj h
    refine .numeral ⟨bounded, found, part, hform.2, ?_⟩
    by_contra hall
    have hsome : (Text.numeral? digits).isSome = true := Text.numeral?_isSome.2 <| by
      intro c hc
      by_contra hlone
      exact hall ⟨c, hc, by simpa using hlone⟩
    rw [hnone] at hsome
    cases hsome

/-- What stands between two braces is refused because it is malformed, or because it has a count
that writes no number. There may be a second count, which is read after the first one. -/
theorem due_of_counts {place : Nat} {body : List Char} (bounded : d.boundedRepetition = true)
    (found : '\x7b' :: body ++ ['\x7d'] <:+: cs) (h : countsOfRange place body = .error e) :
    e.Due d cs := by
  by_cases hcomma : ',' ∈ body
  · obtain ⟨low, high, rfl, hlow⟩ := List.eq_append_cons_of_mem hcomma
    have hleft : low <:+: low ++ ',' :: high := List.infix_append' [] low _
    have hright : high <:+: low ++ ',' :: high := ⟨low ++ [','], [], by simp⟩
    rw [countsOfRange_comma hlow] at h
    split at h
    · next hform =>
      rw [Bool.and_eq_true, Bool.or_eq_true] at hform
      split at h
      · exact due_of_count bounded found hleft hform.1 (error_of_map_eq_error h)
      · next hempty =>
        rcases error_of_bind_eq_error h with hn | ⟨n, _, h⟩
        · exact due_of_count bounded found hleft hform.1 hn
        · exact due_of_count bounded found hright (hform.2.resolve_left hempty)
            (error_of_map_eq_error h)
    · obtain rfl := Except.error.inj h
      exact .malformed _
  · rw [countsOfRange_single hcomma] at h
    split at h
    · next hform =>
      exact due_of_count bounded found (List.infix_refl body) hform (error_of_map_eq_error h)
    · obtain rfl := Except.error.inj h
      exact .malformed _

/-- Two numbers are no range only if the greatest count is below the least, and then both are
written. A missing greatest count is above every least one. -/
theorem due_of_ofNats {place lo : Nat} {hi : Option Nat} {body : List Char} {f : BoundsError}
    (bounded : d.boundedRepetition = true) (found : '\x7b' :: body ++ ['\x7d'] <:+: cs)
    (hcounts : countsOfRange place body = .ok (lo, hi)) (h : Bounds.ofNats lo hi = .error f) :
    (ParseError.range f).Due d cs := by
  cases hi with
  | none => cases h
  | some k =>
    rw [Bounds.ofNats] at h
    split at h
    · cases h
    · next hnot =>
      obtain rfl := Except.error.inj h
      rcases numerals_of_counts hcounts with
        ⟨_, heq⟩ | ⟨low, high, rfl, hlow, ⟨_, heq⟩ | ⟨n, hhigh, heq⟩⟩
      · exact absurd (Nat.le_of_eq (Option.some.inj heq).symm) hnot
      · cases heq
      · obtain rfl := Option.some.inj heq
        exact .range ⟨bounded, found, hlow, hhigh, Nat.lt_of_not_le hnot⟩

/-! ## Steps of reading

Each of these steps fails for its own reasons only. None of them looks at what follows in the
text. -/

/-- A tree that is too deep makes the text malformed. -/
theorem due_of_checkDepth {place : Nat} {t : Tree} (h : checkDepth d place t = .error e) :
    e.Due d cs := by
  rw [checkDepth] at h
  split at h
  · obtain rfl := Except.error.inj h
    exact .malformed _
  · cases h

/-- So does an option that is empty and must not be. -/
theorem due_of_option {l : Level} {stop : Nat} (h : l.option d stop = .error e) :
    e.Due d cs := by
  rw [Level.option] at h
  split at h
  · cases h
  · split at h
    · cases h
    · obtain rfl := Except.error.inj h
      exact .malformed _
  · cases h

/-- A bar ends an option, and fails only if that does. -/
theorem due_of_bar {l : Level} {place : Nat} (h : l.bar d place = .error e) : e.Due d cs := by
  rcases error_of_bind_eq_error h with h | ⟨t, _, h⟩
  · exact due_of_option h
  · cases h

/-- The end of a level ends an option, too. -/
theorem due_of_tree {l : Level} {stop : Nat} (h : l.tree d stop = .error e) : e.Due d cs := by
  rcases error_of_bind_eq_error h with h | ⟨t, _, h⟩
  · exact due_of_option h
  · split at h
    · cases h
    · split at h <;> cases h

/-- A repetition fails because of its range, or because the text is malformed: there is nothing to
repeat, or the tree is too deep. -/
theorem due_of_repeatLast {l : Level} {bounds : Except BoundsError Bounds} {q : List Char}
    {place : Nat} (hbounds : ∀ f, bounds = .error f → (ParseError.range f).Due d cs)
    (h : repeatLast d l bounds q place = .error e) : e.Due d cs := by
  rw [repeatLast] at h
  split at h
  · obtain rfl := Except.error.inj h
    exact .malformed _
  · split at h
    · next f =>
      obtain rfl := Except.error.inj h
      exact hbounds f rfl
    · rcases error_of_bind_eq_error h with h | ⟨t, _, h⟩
      · exact due_of_checkDepth h
      · cases h

/-- Whatever was read before, reading the rest of a text fails for what stands in the rest. By
induction on the calls, one case for each kind of character. -/
theorem due_of_readRest {index : Nat} {level : Level} {outer : List Level}
    (h : readRest d index level outer cs = .error e) : e.Due d cs := by
  have later {c : Char} {rest : List Char} {e : ParseError} (he : e.Due d rest) :
      e.Due d (c :: rest) := he.mono (List.infix_cons (List.infix_refl rest))
  fun_induction readRest d index level outer cs generalizing e with
  -- the text ends here
  | case1 => exact due_of_tree h
  | case2 | case3 | case5 | case9 | case12 =>
    obtain rfl := Except.error.inj h
    exact .malformed _
  | case4 index level outer rest _ ih => exact later (ih h)
  -- a group is closed
  | case6 index level rest around outer _ ih =>
    rcases error_of_bind_eq_error h with h | ⟨inner, _, h⟩
    · exact due_of_tree h
    · rcases error_of_bind_eq_error h with h | ⟨t, _, h⟩
      · exact due_of_checkDepth h
      · exact later (ih t h)
  | case7 index level outer c rest _ _ _ ih => exact later (ih h)
  -- a bar
  | case8 index level outer rest _ _ _ ih =>
    rcases error_of_bind_eq_error h with h | ⟨l, _, h⟩
    · exact due_of_bar h
    · exact later (ih l h)
  -- a range in braces
  | case10 index level outer c rest _ _ _ _ hbrace body rest' hsplit _ ih =>
    obtain ⟨rfl, bounded⟩ := hbrace
    have hrest : '\x7b' :: rest = '\x7b' :: body ++ ['\x7d'] ++ rest' := by
      rw [eq_append_of_splitRange hsplit]
      simp
    have found : '\x7b' :: body ++ ['\x7d'] <:+: '\x7b' :: rest := by
      rw [hrest]
      exact (List.prefix_append _ rest').isInfix
    rcases error_of_bind_eq_error h with h | ⟨⟨lo, hi⟩, hcounts, h⟩
    · exact due_of_counts bounded found h
    · rcases error_of_bind_eq_error h with h | ⟨l, _, h⟩
      · exact due_of_repeatLast (fun f hf => due_of_ofNats bounded found hcounts hf) h
      · rw [hrest]
        exact (ih l h).mono (List.suffix_append _ rest').isInfix
  -- a repetition of one character
  | case11 index level outer c rest _ _ _ _ _ b _ ih =>
    rcases error_of_bind_eq_error h with h | ⟨l, _, h⟩
    · refine due_of_repeatLast ?_ h
      intro f hf
      cases hf
    · exact later (ih l h)

/-- So it is with whole texts, after their parentheses have been paired up. -/
theorem due_of_parse {s : String} (h : parse d s = .error e) : e.Due d s.toList := by
  rw [parse, parseChars] at h
  rcases error_of_bind_eq_error h with h | ⟨_, _, h⟩
  · cases hpair : Parens.pair s.toList with
    | ok pairs =>
      rw [hpair] at h
      cases h
    | error fault =>
      rw [hpair] at h
      obtain rfl := Except.error.inj h
      exact .malformed fault
  · split at h
    · obtain rfl := Except.error.inj h
      exact .malformed _
    · exact due_of_readRest h

/-! ## Documented failures -/

/-- The failures that reading is documented to have: the text is reported as malformed, or the
greatest count of a range in it is below the least. -/
inductive Documented (d : Dialect) (s : String) : ParseError → Prop where
  | malformed (fault : SyntaxError) (pattern_eq : (fault.report s).pattern = some s) :
      Documented d s (.malformed fault)
  | range {lo hi : Nat} (inverted : InvertedRange d s.toList lo hi) :
      Documented d s (.range (.inverted lo hi))

/-- Whatever the text and the dialect, a tree is read, or reading fails as it is documented to, or
else it fails for a count in braces that has a digit which is not decimal. The last case is due to a
difference between what is recognised as a digit and what is read as a number. -/
theorem documented_or_numeral (d : Dialect) (s : String) :
    (∃ t, parse d s = .ok t) ∨ (∃ e, parse d s = .error e ∧ Documented d s e) ∨
      ∃ digits, LoneCount d s.toList digits ∧
        parse d s = .error (.numeral (String.ofList digits)) := by
  cases hparse : parse d s with
  | ok t => exact Or.inl ⟨t, rfl⟩
  | error e =>
    refine Or.inr ?_
    cases due_of_parse hparse with
    | malformed fault => exact Or.inl ⟨_, rfl, .malformed fault rfl⟩
    | range inverted => exact Or.inl ⟨_, rfl, .range inverted⟩
    | numeral count => exact Or.inr ⟨_, count, rfl⟩

/-- A superscript is a digit, but writes no number: `a{²}` is refused in an undocumented way. -/
theorem not_documented_superscript : ¬∀ (d : Dialect) (s : String),
    (∃ t, parse d s = .ok t) ∨ ∃ e, parse d s = .error e ∧ Documented d s e := by
  intro hall
  have hparse : parse { boundedRepetition := true } "a\x7b²\x7d" = .error (.numeral "²") := by
    with_unfolding_all rfl
  rcases hall { boundedRepetition := true } "a\x7b²\x7d" with ⟨t, ht⟩ | ⟨e, he, hdocumented⟩
  · rw [hparse] at ht
    cases ht
  · rw [hparse] at he
    obtain rfl := Except.error.inj he
    cases hdocumented

end Parser

end PatternAutomata
