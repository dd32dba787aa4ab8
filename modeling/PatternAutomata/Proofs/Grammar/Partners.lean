/-
Which parentheses are paired up.

The partner of an opening parenthesis is the closing one that follows with a balanced text in
between (`Parens.Partners`). What a text leaves open is told by the places of its open parentheses:
the text is cut at them into pieces, each of which is balanced (`Parens.Leaves`). A closing
parenthesis that follows is then the partner of the last of them, since the last piece is balanced,
and of no other one.

The pass over a text keeps both in step (`Parens.Passed`): the places that it has not paired up are
those that the text read so far leaves open, and the pairs are the partners within it. Each way in
which the pass ends says what the text is like (`Parens.outcome_pair`), and from that all is read
off that there is to say about the pairs and about the place of a fault (`Parens.pairing_spec`).
-/
import Mathlib.Order.Bounds.Basic
import PatternAutomata.Proofs.Grammar.Pairing

set_option autoImplicit false

namespace PatternAutomata

namespace Parens

variable {n i j k l : Nat} {c d : Char} {cs q text more : List Char}

/-! ## Texts put together -/

/-- A beginning of a text in two parts is one of the first part, or all of it and one of the
second. -/
theorem beginning_cases {before : List Char} (h : before <+: q ++ cs) :
    before <+: q ∨ ∃ rest, rest <+: cs ∧ before = q ++ rest := by
  rcases List.prefix_or_prefix_of_prefix h (List.prefix_append q cs) with hbefore | ⟨rest, rfl⟩
  · exact Or.inl hbefore
  · exact Or.inr ⟨rest, (List.prefix_append_right_inj q).1 h, rfl⟩

/-- No beginning of a text closes more parentheses than it opens. -/
def OpenedFirst (cs : List Char) : Prop :=
  ∀ before, before <+: cs → before.count ')' ≤ before.count '('

/-- Texts that close nothing too early can be put together. -/
theorem OpenedFirst.append (hq : OpenedFirst q) (hcs : OpenedFirst cs) :
    OpenedFirst (q ++ cs) := by
  intro before hbefore
  rcases beginning_cases hbefore with hbefore | ⟨rest, hrest, rfl⟩
  · exact hq before hbefore
  · rw [List.count_append, List.count_append]
    exact Nat.add_le_add (hq q (List.prefix_refl q)) (hcs rest hrest)

/-- An opening parenthesis closes nothing. -/
theorem openedFirst_open : OpenedFirst ['('] := by
  intro before hbefore
  rcases List.prefix_cons_iff.1 hbefore with rfl | ⟨rest, rfl, hrest⟩
  · exact Nat.le_refl _
  · rw [List.prefix_nil.1 hrest]
    decide

/-- A balanced text in front makes no difference to what has to be closed. It opens as many as it
closes and never closes more, so it neither adds to what is open nor takes from it. -/
theorem Balanced.closes_append_iff (hq : Balanced q) : Closes n (q ++ cs) ↔ Closes n cs := by
  have hall := hq.all_closed
  constructor
  · intro ⟨hfirst, htotal⟩
    refine ⟨fun before hbefore => ?_, ?_⟩
    · have hle := hfirst (q ++ before) ((List.prefix_append_right_inj q).2 hbefore)
      rw [List.count_append, List.count_append] at hle
      omega
    · rw [List.count_append, List.count_append] at htotal
      omega
  · intro ⟨hfirst, htotal⟩
    refine ⟨fun before hbefore => ?_, ?_⟩
    · rcases beginning_cases hbefore with hbefore | ⟨rest, hrest, rfl⟩
      · exact Nat.le_trans (hq.opened_first before hbefore) (Nat.le_add_left _ n)
      · have hle := hfirst rest hrest
        rw [List.count_append, List.count_append]
        omega
    · rw [List.count_append, List.count_append]
      omega

/-- The empty text is balanced. -/
theorem balanced_nil : Balanced [] := closes_zero_iff.1 (closes_nil_iff.2 rfl)

/-- So is a character that is no parenthesis. -/
theorem balanced_other (hopen : c ≠ '(') (hclose : c ≠ ')') : Balanced [c] :=
  closes_zero_iff.1 ((closes_other_iff hopen hclose).2 (closes_nil_iff.2 rfl))

/-- Balanced texts can be put together. -/
theorem Balanced.append (hq : Balanced q) (hcs : Balanced cs) : Balanced (q ++ cs) :=
  closes_zero_iff.1 (hq.closes_append_iff.2 (closes_zero_iff.2 hcs))

/-- A balanced text is balanced in parentheses too. -/
theorem Balanced.enclosed (hq : Balanced q) : Balanced ('(' :: (q ++ [')'])) := by
  rw [← closes_zero_iff, closes_open_iff, hq.closes_append_iff, closes_close_iff]
  exact closes_nil_iff.2 rfl

/-- One more closing parenthesis opens nothing. -/
theorem count_concat_close (q : List Char) :
    (q ++ [')']).count '(' = q.count '(' ∧ (q ++ [')']).count ')' = q.count ')' + 1 := by
  rw [List.count_append, List.count_append]
  exact ⟨rfl, rfl⟩

/-- What follows an opening parenthesis of a balanced text closes more than it opens. -/
theorem Balanced.count_lt (h : Balanced (q ++ '(' :: cs)) : cs.count '(' < cs.count ')' := by
  have hq := h.opened_first q (List.prefix_append q _)
  have hall := h.all_closed
  simp only [List.count_append, List.count_cons_self, List.count_cons_of_ne, ne_eq,
    Char.reduceEq, not_false_eq_true] at hall
  omega

/-! ## Between two places -/

/-- The characters between two places. -/
def between (text : List Char) (i j : Nat) : List Char := (text.take j).drop (i + 1)

/-- Up to the end of the text, what is between is what follows. -/
theorem between_length (text : List Char) (i : Nat) :
    between text i text.length = text.drop (i + 1) := by
  rw [between, List.take_length]

/-- What follows a text changes nothing before its end. -/
theorem between_append (hj : j ≤ text.length) : between (text ++ more) i j = between text i j := by
  rw [between, List.take_append_of_le_length hj, between]

/-- Between a place and a later one lies all that is between it and an earlier one, at the
beginning. -/
theorem between_prefix_between (hjl : j ≤ l) : between text i j <+: between text i l :=
  (List.take_prefix_take_left hjl).drop (i + 1)

/-- The place of a character parts what is between two others. -/
theorem between_eq_append (hik : i < k) (hkj : k < j) (hc : text[k]? = some c) :
    between text i j = between text i k ++ c :: between text k j := by
  obtain ⟨hk, rfl⟩ := List.getElem?_eq_some_iff.1 hc
  have hsplit : text.take j = text.take k ++ text[k] :: (text.take j).drop (k + 1) := by
    have hk' : k < (text.take j).length := by
      rw [List.length_take]
      omega
    have hpart := List.take_append_drop k (text.take j)
    rw [List.take_take, Nat.min_eq_left (Nat.le_of_lt hkj), List.drop_eq_getElem_cons hk',
      List.getElem_take] at hpart
    exact hpart.symm
  have hle : i + 1 ≤ (text.take k).length := by
    rw [List.length_take]
    omega
  rw [between, hsplit, List.drop_append_of_le_length hle]
  rfl

/-- Behind a character lies what follows it. -/
theorem drop_append_cons (before after : List Char) (c : Char) :
    (before ++ c :: after).drop (before.length + 1) = after := by
  simp

/-- What follows a place is parted by any later one. -/
theorem drop_eq_append (hik : i < k) (hc : text[k]? = some c) :
    text.drop (i + 1) = between text i k ++ c :: text.drop (k + 1) := by
  have hk := (List.getElem?_eq_some_iff.1 hc).1
  rw [← between_length, between_eq_append hik hk hc, between_length]

/-! ## Partners -/

/-- A closing parenthesis closes an opening one that comes before it: what is between them is
balanced. -/
structure Partners (text : List Char) (i j : Nat) : Prop where
  opening : text[i]? = some '('
  closing : text[j]? = some ')'
  lt : i < j
  balanced : Balanced (between text i j)

/-- Partners do not depend on what comes later. -/
theorem partners_append_iff (hj : j < text.length) :
    Partners (text ++ more) i j ↔ Partners text i j := by
  have hbetween : between (text ++ more) i j = between text i j :=
    between_append (Nat.le_of_lt hj)
  constructor
  · intro ⟨hopen, hclose, hlt, hbalanced⟩
    rw [List.getElem?_append_left (Nat.lt_trans hlt hj)] at hopen
    rw [List.getElem?_append_left hj] at hclose
    exact ⟨hopen, hclose, hlt, hbetween ▸ hbalanced⟩
  · intro ⟨hopen, hclose, hlt, hbalanced⟩
    refine ⟨?_, ?_, hlt, hbetween.symm ▸ hbalanced⟩
    · rwa [List.getElem?_append_left (Nat.lt_trans hlt hj)]
    · rwa [List.getElem?_append_left hj]

/-- A character stands in a text with one more character if it stands in the text or is that one. -/
theorem getElem?_concat_eq_some_iff :
    (text ++ [c])[i]? = some d ↔ text[i]? = some d ∨ i = text.length ∧ c = d := by
  rcases Nat.lt_trichotomy i text.length with hi | rfl | hi
  · rw [List.getElem?_append_left hi]
    exact (or_iff_left fun h => absurd h.1 (Nat.ne_of_lt hi)).symm
  · rw [List.getElem?_concat_length, List.getElem?_eq_none (Nat.le_refl _), Option.some.injEq]
    simp
  · rw [List.getElem?_eq_none (by rw [List.length_append, List.length_singleton]; omega),
      List.getElem?_eq_none (Nat.le_of_lt hi)]
    refine iff_of_false nofun ?_
    rintro (h | ⟨rfl, _⟩)
    · cases h
    · exact Nat.lt_irrefl _ hi

/-- One more character makes partners only if it closes a parenthesis that a balanced text
follows. -/
theorem partners_concat_iff : Partners (text ++ [c]) i j ↔ Partners text i j ∨
    j = text.length ∧ c = ')' ∧ text[i]? = some '(' ∧ Balanced (text.drop (i + 1)) := by
  have hlast : between (text ++ [c]) i text.length = text.drop (i + 1) := by
    rw [between_append (Nat.le_refl _), between_length]
  constructor
  · intro h
    rcases getElem?_concat_eq_some_iff.1 h.closing with hclose | ⟨rfl, hc⟩
    · have hj : j < text.length := (List.getElem?_eq_some_iff.1 hclose).1
      exact Or.inl ((partners_append_iff hj).1 h)
    · have hopen := h.opening
      rw [List.getElem?_append_left h.lt] at hopen
      exact Or.inr ⟨rfl, hc, hopen, hlast ▸ h.balanced⟩
  · rintro (h | ⟨rfl, rfl, hopen, hbalanced⟩)
    · have hj : j < text.length := (List.getElem?_eq_some_iff.1 h.closing).1
      exact (partners_append_iff hj).2 h
    · have hi : i < text.length := (List.getElem?_eq_some_iff.1 hopen).1
      refine ⟨?_, List.getElem?_concat_length, hi, hlast.symm ▸ hbalanced⟩
      rwa [List.getElem?_append_left hi]

/-- Only one opening parenthesis is followed by a balanced text. Of two, the earlier one is followed
by a text with the later one in it, which is not closed there. -/
theorem eq_of_balanced_drop (hi : text[i]? = some '(') (hk : text[k]? = some '(')
    (hi_rest : Balanced (text.drop (i + 1))) (hk_rest : Balanced (text.drop (k + 1))) : i = k := by
  have hle : ∀ {a b : Nat}, text[b]? = some '(' → Balanced (text.drop (a + 1)) →
      Balanced (text.drop (b + 1)) → b ≤ a := by
    intro a b hb ha_rest hb_rest
    refine Nat.not_lt.1 fun hlt => ?_
    rw [drop_eq_append hlt hb] at ha_rest
    exact absurd hb_rest.all_closed (Nat.ne_of_gt ha_rest.count_lt)
  exact Nat.le_antisymm (hle hi hk_rest hi_rest) (hle hk hi_rest hk_rest)

/-- An opening parenthesis has no partner if all that follows is opened first: its partner would
close more than was opened since. -/
theorem not_partners_of_openedFirst (h : OpenedFirst (text.drop (i + 1))) : ¬Partners text i j := by
  intro hij
  have hle := h (between text i j ++ [')']) (by
    rw [drop_eq_append hij.lt hij.closing]
    exact (List.prefix_append_right_inj _).2 ⟨_, rfl⟩)
  have hall := hij.balanced.all_closed
  obtain ⟨hopened, hclosed⟩ := count_concat_close (between text i j)
  omega

/-- A parenthesis that is opened between two partners is closed between them, or else what is
between them would not be balanced. -/
theorem Partners.closed_within (hij : Partners text i j) (hkl : Partners text k l) (hik : i < k)
    (hkj : k < j) : l < j := by
  refine Nat.not_le.1 fun hjl => ?_
  -- up to the outer partner more is closed than opened, which the inner partners do not allow
  have hbalanced := hij.balanced
  rw [between_eq_append hik hkj hkl.opening] at hbalanced
  have hopened := hkl.balanced.opened_first _ (between_prefix_between hjl)
  exact absurd hbalanced.count_lt (Nat.not_lt.2 hopened)

/-! ## What a text leaves open -/

/-- A text leaves parentheses open at some places, the last one first: before the first of them,
between any two and after the last it is balanced. -/
inductive Leaves : List Char → List Nat → Prop where
  | none {text : List Char} (balanced : Balanced text) : Leaves text []
  | more {before after : List Char} {unclosed : List Nat} (rest : Leaves before unclosed)
      (balanced : Balanced after) : Leaves (before ++ '(' :: after) (before.length :: unclosed)

variable {unclosed : List Nat}

namespace Leaves

/-- A text that leaves parentheses open closes nothing too early. -/
theorem openedFirst (h : Leaves text unclosed) : OpenedFirst text := by
  induction h with
  | none balanced => exact balanced.opened_first
  | more _ balanced ih => exact ih.append (openedFirst_open.append balanced.opened_first)

/-- A balanced text that follows leaves no more open. -/
theorem append (h : Leaves text unclosed) (hq : Balanced q) : Leaves (text ++ q) unclosed := by
  cases h with
  | none balanced => exact .none (balanced.append hq)
  | more rest balanced =>
    rw [List.append_assoc, List.cons_append]
    exact .more rest (balanced.append hq)

/-- An opening parenthesis leaves one more open. -/
theorem concat_open (h : Leaves text unclosed) : Leaves (text ++ ['(']) (text.length :: unclosed) :=
  .more h balanced_nil

/-- A closing parenthesis closes the last one that is open. -/
theorem concat_close (h : Leaves text (i :: unclosed)) : Leaves (text ++ [')']) unclosed := by
  cases h with
  | more rest balanced =>
    rw [List.append_assoc, List.cons_append]
    exact rest.append balanced.enclosed

/-- At each of the places a parenthesis is opened, and what follows is opened first. By induction on
the pieces, from the last one on. -/
theorem mem (h : Leaves text unclosed) (hi : i ∈ unclosed) :
    text[i]? = some '(' ∧ OpenedFirst (text.drop (i + 1)) := by
  induction h with
  | none => nomatch hi
  | @more before after unclosed _ balanced ih =>
    rcases List.mem_cons.1 hi with rfl | hi
    · refine ⟨by simp, ?_⟩
      rw [drop_append_cons]
      exact balanced.opened_first
    · obtain ⟨hopen, hrest⟩ := ih hi
      have hlt : i < before.length := (List.getElem?_eq_some_iff.1 hopen).1
      refine ⟨by rwa [List.getElem?_append_left hlt], ?_⟩
      rw [List.drop_append_of_le_length hlt]
      exact hrest.append (openedFirst_open.append balanced.opened_first)

/-- The text after the last place is balanced, and the other places come before it. -/
theorem last (h : Leaves text (i :: unclosed)) :
    Balanced (text.drop (i + 1)) ∧ ∀ k ∈ unclosed, k < i := by
  cases h with
  | @more before after _ rest balanced =>
    rw [drop_append_cons]
    exact ⟨balanced, fun k hk => (List.getElem?_eq_some_iff.1 (rest.mem hk).1).1⟩

/-- The last parenthesis that is open gets its partner, and no others become partners. -/
theorem partners_concat_close (h : Leaves text (i :: unclosed)) {a b : Nat} :
    Partners (text ++ [')']) a b ↔ Partners text a b ∨ a = i ∧ b = text.length := by
  have hopen := (h.mem List.mem_cons_self).1
  rw [partners_concat_iff]
  refine or_congr_right ⟨?_, ?_⟩
  · rintro ⟨hb, _, ha, ha_rest⟩
    exact ⟨eq_of_balanced_drop ha hopen ha_rest h.last.1, hb⟩
  · rintro ⟨rfl, hb⟩
    exact ⟨hb, rfl, hopen, h.last.1⟩

/-- Neither the last parenthesis that is open nor what follows the text is in a pair of the text. -/
theorem ne_of_partners (h : Leaves text (i :: unclosed)) {a b : Nat} (hab : Partners text a b) :
    a ≠ i ∧ a ≠ text.length ∧ b ≠ i ∧ b ≠ text.length := by
  obtain ⟨hopen, hrest⟩ := h.mem List.mem_cons_self
  have hb : b < text.length := (List.getElem?_eq_some_iff.1 hab.closing).1
  have hlt := hab.lt
  refine ⟨?_, by omega, ?_, by omega⟩
  · rintro rfl
    exact not_partners_of_openedFirst hrest hab
  · rintro rfl
    exact absurd (hopen.symm.trans hab.closing) (by decide)

end Leaves

/-! ## The pass over a text -/

/-- The pass has gone over a text: the places that it has not paired up are those that the text
leaves open, the pairs are the partners within the text, and every parenthesis is one or the
other. -/
structure Passed (text : List Char) (unclosed : List Nat) (pairs : OrdMap Nat Nat) : Prop where
  leaves : Leaves text unclosed
  get?_iff : ∀ i j, pairs.get? i = some j ↔ Partners text i j ∨ Partners text j i
  opening : ∀ i, text[i]? = some '(' → i ∈ unclosed ∨ ∃ j, Partners text i j
  closing : ∀ j, text[j]? = some ')' → ∃ i, Partners text i j

namespace Passed

variable {pairs : OrdMap Nat Nat}

/-- Before the pass nothing is open and nothing is paired up. -/
theorem begin : Passed [] [] ∅ where
  leaves := .none balanced_nil
  get?_iff i j := by
    refine iff_of_false nofun ?_
    rintro (h | h) <;> nomatch h.opening
  opening i h := nomatch h
  closing j h := nomatch h

/-- A character that closes nothing makes no partners. -/
theorem concat_unclosing {unclosed' : List Nat} (h : Passed text unclosed pairs)
    (hleaves : Leaves (text ++ [c]) unclosed') (hclose : c ≠ ')')
    (hunclosed : ∀ i, i ∈ unclosed ∨ i = text.length ∧ c = '(' → i ∈ unclosed') :
    Passed (text ++ [c]) unclosed' pairs := by
  have hpartners : ∀ i j, Partners (text ++ [c]) i j ↔ Partners text i j := fun i j =>
    partners_concat_iff.trans (or_iff_left fun hnew => hclose hnew.2.1)
  constructor
  · exact hleaves
  · intro i j
    rw [hpartners, hpartners, h.get?_iff]
  · intro i hi
    simp only [hpartners]
    rcases getElem?_concat_eq_some_iff.1 hi with hi | hi
    · exact (h.opening i hi).imp_left fun hmem => hunclosed i (Or.inl hmem)
    · exact Or.inl (hunclosed i (Or.inr hi))
  · intro j hj
    simp only [hpartners]
    rcases getElem?_concat_eq_some_iff.1 hj with hj | ⟨_, hc⟩
    · exact h.closing j hj
    · exact absurd hc hclose

/-- An opening parenthesis is put with those that are open. -/
theorem concat_open (h : Passed text unclosed pairs) :
    Passed (text ++ ['(']) (text.length :: unclosed) pairs := by
  refine h.concat_unclosing h.leaves.concat_open (by decide) ?_
  rintro i (hi | ⟨rfl, _⟩)
  · exact List.mem_cons_of_mem _ hi
  · exact List.mem_cons_self

/-- A character that is no parenthesis is passed over. -/
theorem concat_other (h : Passed text unclosed pairs) (hopen : c ≠ '(') (hclose : c ≠ ')') :
    Passed (text ++ [c]) unclosed pairs := by
  refine h.concat_unclosing (h.leaves.append (balanced_other hopen hclose)) hclose ?_
  rintro i (hi | ⟨_, hc⟩)
  · exact hi
  · exact absurd hc hopen

/-- A closing parenthesis is paired up with the last one that is open. It is the partner of that one
and of no other, and all other partners stay; so noting the two ends keeps the table right. -/
theorem concat_close (h : Passed text (i :: unclosed) pairs) :
    Passed (text ++ [')']) unclosed ((pairs.insert i text.length).insert text.length i) := by
  have hpartners := fun a b => h.leaves.partners_concat_close (a := a) (b := b)
  constructor
  · exact h.leaves.concat_close
  · intro a b
    rw [OrdMap.get?_insert, OrdMap.get?_insert, hpartners, hpartners]
    have hnew := fun a b => h.leaves.ne_of_partners (a := a) (b := b)
    by_cases ha : a = text.length
    -- the new parenthesis is the partner of the one that it closes, and of no other
    · rw [if_pos ha, Option.some.injEq]
      grind
    · rw [if_neg ha]
      by_cases hai : a = i
      -- and so the other way round, for nothing was paired with that one before
      · rw [if_pos hai, Option.some.injEq]
        grind
      · rw [if_neg hai, h.get?_iff]
        grind
  · intro a ha
    simp only [hpartners]
    rcases getElem?_concat_eq_some_iff.1 ha with ha | ⟨_, hc⟩
    · rcases h.opening a ha with hmem | ⟨b, hab⟩
      · rcases List.mem_cons.1 hmem with rfl | hmem
        · exact Or.inr ⟨_, Or.inr ⟨rfl, rfl⟩⟩
        · exact Or.inl hmem
      · exact Or.inr ⟨b, Or.inl hab⟩
    · exact absurd hc (by decide)
  · intro b hb
    simp only [hpartners]
    rcases getElem?_concat_eq_some_iff.1 hb with hb | ⟨rfl, _⟩
    · obtain ⟨a, hab⟩ := h.closing b hb
      exact ⟨a, Or.inl hab⟩
    · exact ⟨i, Or.inr ⟨rfl, rfl⟩⟩

end Passed

/-- How the pass over a text ends: all is paired up, some parentheses are left open, or a closing
one stands where none is open. -/
inductive Outcome (text : List Char) : Except SyntaxError (OrdMap Nat Nat) → Prop where
  | paired {pairs : OrdMap Nat Nat} (passed : Passed text [] pairs) : Outcome text (.ok pairs)
  | unclosed {i : Nat} {rest : List Nat} {pairs : OrdMap Nat Nat}
      (passed : Passed text (i :: rest) pairs) : Outcome text (.error ⟨.neverClosed, i⟩)
  | stray {before after : List Char} (split : text = before ++ ')' :: after)
      (balanced : Balanced before) : Outcome text (.error ⟨.unmatchedClosing, before.length⟩)

/-- From any place on, the pass ends in one of the three ways. By induction on what is left of the
text: each character is passed over, opens one more, closes the last one, or is the stray one. -/
theorem outcome_pairRest {index : Nat} {pairs : OrdMap Nat Nat} (h : Passed text unclosed pairs)
    (hindex : index = text.length) : Outcome (text ++ cs) (pairRest index unclosed pairs cs) := by
  fun_induction pairRest index unclosed pairs cs generalizing text with
  | case1 index pairs =>
    rw [List.append_nil]
    exact .paired h
  | case2 index pairs i unclosed =>
    rw [List.append_nil]
    exact .unclosed h
  | case3 index unclosed pairs cs ih =>
    subst hindex
    rw [List.append_cons]
    exact ih h.concat_open (by simp)
  | case4 index pairs cs =>
    subst hindex
    cases h.leaves with
    | none balanced => exact .stray rfl balanced
  | case5 index pairs cs i unclosed _ ih =>
    subst hindex
    rw [List.append_cons]
    exact ih h.concat_close (by simp)
  | case6 index unclosed pairs c cs hopen hclose ih =>
    subst hindex
    rw [List.append_cons]
    exact ih (h.concat_other hopen hclose) (by simp)

/-- A whole text is passed over from its beginning. -/
theorem outcome_pair (text : List Char) : Outcome text (pair text) :=
  outcome_pairRest .begin rfl

/-! ## The main statement -/

/-- The parentheses of a text are paired up: those and nothing else have a partner, which has them
as its partner in turn; the partner of an opening parenthesis comes later and closes it; and of a
pair that starts or ends between two partners, both are between them. -/
structure Matching (text : List Char) (pairs : OrdMap Nat Nat) : Prop where
  mem_keys_iff : ∀ i, i ∈ pairs.keys ↔ text[i]? = some '(' ∨ text[i]? = some ')'
  symm : ∀ i j, pairs.get? i = some j → pairs.get? j = some i
  partners : ∀ i j, text[i]? = some '(' → pairs.get? i = some j → Partners text i j
  nested : ∀ i j k l, pairs.get? i = some j → pairs.get? k = some l → i < k → k < j →
    i < l ∧ l < j

/-- What the pass has gone over to the end is paired up. That pairs are nested is seen from what is
between them: two pairs that cross would leave a parenthesis open between two partners. -/
theorem Passed.matching {pairs : OrdMap Nat Nat} (h : Passed text [] pairs) :
    Matching text pairs := by
  have hsymm : ∀ i j, pairs.get? i = some j → pairs.get? j = some i := by
    intro i j hij
    rw [h.get?_iff] at hij ⊢
    exact hij.symm
  have hpartners : ∀ {i j}, i < j → pairs.get? i = some j → Partners text i j := by
    intro i j hlt hij
    exact ((h.get?_iff i j).1 hij).resolve_right fun hji => Nat.lt_asymm hlt hji.lt
  constructor
  · intro i
    rw [OrdMap.mem_keys_iff, OrdMap.contains, Option.isSome_iff_exists]
    simp only [h.get?_iff]
    constructor
    · rintro ⟨j, hij | hji⟩
      · exact Or.inl hij.opening
      · exact Or.inr hji.closing
    · rintro (hi | hi)
      · obtain ⟨j, hij⟩ := (h.opening i hi).resolve_left List.not_mem_nil
        exact ⟨j, Or.inl hij⟩
      · obtain ⟨j, hji⟩ := h.closing i hi
        exact ⟨j, Or.inr hji⟩
  · exact hsymm
  · intro i j hi hij
    refine ((h.get?_iff i j).1 hij).resolve_right fun hji => ?_
    exact absurd (hi.symm.trans hji.closing) (by decide)
  -- one end of the second pair is between the partners, and it may be either end
  · intro i j k l hij hkl hik hkj
    have houter := hpartners (Nat.lt_trans hik hkj) hij
    rcases Nat.lt_or_ge l k with hlk | hkl_le
    · -- the inner pair is met at its end
      have hinner := hpartners hlk (hsymm k l hkl)
      refine ⟨?_, Nat.lt_trans hlk hkj⟩
      rcases Nat.lt_trichotomy i l with hlt | rfl | hlt
      · exact hlt
      · rw [hsymm k i hkl, Option.some.injEq] at hij
        exact absurd hij (Nat.ne_of_lt hkj)
      · exact absurd (hinner.closed_within houter hlt hik) (Nat.lt_asymm hkj)
    · have hinner : Partners text k l := by
        rcases (h.get?_iff k l).1 hkl with hkl | hlk
        · exact hkl
        · exact absurd hlk.lt (Nat.not_lt.2 hkl_le)
      exact ⟨Nat.lt_of_lt_of_le hik hkl_le, houter.closed_within hinner hik hkj⟩

/-- Up to a closing parenthesis that follows a balanced text, no shorter beginning closes more than
it opens. -/
theorem isLeast_of_balanced {before : List Char} (after : List Char) (h : Balanced before) :
    IsLeast {n | ((before ++ ')' :: after).take n).count '(' <
      ((before ++ ')' :: after).take n).count ')'} (before.length + 1) := by
  have hall := h.all_closed
  constructor
  · have htake : (before ++ ')' :: after).take (before.length + 1) = before ++ [')'] := by
      simp [List.take_append]
    obtain ⟨hopened, hclosed⟩ := count_concat_close before
    show ((before ++ ')' :: after).take _).count '(' < _
    rw [htake]
    omega
  · intro n hn
    refine Nat.not_lt.1 fun hlt => ?_
    have hearly : (before.take n).count '(' < (before.take n).count ')' := by
      have htake : (before ++ ')' :: after).take n = before.take n :=
        List.take_append_of_le_length (Nat.lt_succ_iff.1 hlt)
      rwa [← htake]
    exact absurd hearly (Nat.not_lt.2 (h.opened_first _ (List.take_prefix n before)))

/-- The last place that is left open is the last one of a parenthesis without a partner. All later
ones are closed by the balanced text that follows it. -/
theorem Passed.isGreatest {rest : List Nat} {pairs : OrdMap Nat Nat}
    (h : Passed text (i :: rest) pairs) :
    IsGreatest {i | text[i]? = some '(' ∧ ∀ j, ¬Partners text i j} i := by
  obtain ⟨hopen, hrest⟩ := h.leaves.mem List.mem_cons_self
  constructor
  · exact ⟨hopen, fun j => not_partners_of_openedFirst hrest⟩
  · rintro k ⟨hk, hno⟩
    have hmem : k ∈ i :: rest := (h.opening k hk).resolve_right fun ⟨j, hj⟩ => hno j hj
    rcases List.mem_cons.1 hmem with rfl | hmem
    · exact Nat.le_refl _
    · exact Nat.le_of_lt (h.leaves.last.2 k hmem)

/-- Exactly the balanced texts have their parentheses paired up, each with its partner. If some
beginning of a text closes more than it opens, the shortest such one ends with the parenthesis that
is reported; if there is none, but the text is not balanced, the last parenthesis is reported that
is never closed. -/
theorem pairing_spec (text : List Char) :
    ((∃ pairs, pair text = .ok pairs) ↔ Balanced text) ∧
      (∀ pairs, pair text = .ok pairs → Matching text pairs) ∧
      (¬OpenedFirst text → ∃ p : Nat, pair text = .error ⟨.unmatchedClosing, p⟩ ∧
        IsLeast {n | (text.take n).count '(' < (text.take n).count ')'} (p + 1)) ∧
      (OpenedFirst text → ¬Balanced text → ∃ p : Nat, pair text = .error ⟨.neverClosed, p⟩ ∧
        IsGreatest {i | text[i]? = some '(' ∧ ∀ j, ¬Partners text i j} p) := by
  refine ⟨exists_pair_iff, ?_⟩
  have houtcome := outcome_pair text
  generalize pair text = result at houtcome
  cases houtcome with
  -- nothing is left open, so what was paired is the whole text
  | paired passed =>
    have hbalanced : Balanced text := by
      cases passed.leaves with
      | none balanced => exact balanced
    refine ⟨?_, ?_, ?_⟩
    · rintro pairs ⟨⟩
      exact passed.matching
    · exact fun hno => absurd hbalanced.opened_first hno
    · exact fun _ hno => absurd hbalanced hno
  | unclosed passed =>
    refine ⟨nofun, ?_, ?_⟩
    · exact fun hno => absurd passed.leaves.openedFirst hno
    · exact fun _ _ => ⟨_, rfl, passed.isGreatest⟩
  -- a text that closes more than it opens somewhere does not open first everywhere
  | @stray before after split balanced =>
    subst split
    have hleast := isLeast_of_balanced after balanced
    refine ⟨nofun, ?_, ?_⟩
    · exact fun _ => ⟨_, rfl, hleast⟩
    · intro hfirst
      exact absurd hleast.1 (Nat.not_lt.2 (hfirst _ (List.take_prefix _ _)))

/-- Each of two nested pairs leads from either end to the other one. -/
example : (pair "(a(b))".toList).map OrdMap.entries = .ok [(0, 5), (2, 4), (4, 2), (5, 0)] := by
  decide

end Parens

end PatternAutomata
