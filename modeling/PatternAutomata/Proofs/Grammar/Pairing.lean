/-
Which texts have all their parentheses paired up.

Parentheses pair up in a text if no beginning of it closes more of them than it opens, and in all
as many are closed as are opened (`Parens.Balanced`). Within a text some are open already, and the
rest of the text has to close those as well (`Parens.Closes`). Reading a character opens one more,
closes one or leaves them alone, and the pass over the text does the same to the row of those that
it has not paired up yet, so it goes through to the end exactly when the parentheses are balanced
(`Parens.exists_pair_iff`). Where it stops, the parenthesis without a partner stands
(`Parens.unpaired_of_pair`).
-/
import Mathlib.Data.List.Infix
import PatternAutomata.Syntax.Parens

set_option autoImplicit false

namespace PatternAutomata

namespace Parens

/-! ## Balanced texts -/

/-- No beginning of a text closes more parentheses than it opens, and the whole text closes as many
as it opens. -/
structure Balanced (cs : List Char) : Prop where
  opened_first : ∀ before, before <+: cs → before.count ')' ≤ before.count '('
  all_closed : cs.count ')' = cs.count '('

/-- What follows in a text in which some parentheses are open closes these and all that it opens. -/
structure Closes (n : Nat) (cs : List Char) : Prop where
  opened_first : ∀ before, before <+: cs → before.count ')' ≤ n + before.count '('
  all_closed : cs.count ')' = n + cs.count '('

variable {n : Nat} {c : Char} {cs : List Char}

/-- With nothing open, to close all is to be balanced. -/
theorem closes_zero_iff : Closes 0 cs ↔ Balanced cs := by
  constructor <;>
    · intro ⟨hfirst, hall⟩
      exact ⟨by simpa using hfirst, by simpa using hall⟩

/-- A text that ends has closed all if nothing is open. -/
theorem closes_nil_iff : Closes n [] ↔ n = 0 := by
  constructor
  · intro h
    simpa using h.all_closed.symm
  · rintro rfl
    exact ⟨by simp, by simp⟩

/-- The first character changes how many are open, and closes no more than that. The beginnings of
the text are the empty one and those that begin with the character. -/
theorem closes_cons_iff : Closes n (c :: cs) ↔
    [c].count ')' ≤ n + [c].count '(' ∧ Closes (n + [c].count '(' - [c].count ')') cs := by
  have hcount (a : Char) (rest : List Char) :
      (c :: rest).count a = [c].count a + rest.count a := by
    rw [show c :: rest = [c] ++ rest from rfl, List.count_append]
  constructor
  · intro ⟨hfirst, hall⟩
    have hone := hfirst [c] (by simp)
    refine ⟨hone, ?_, ?_⟩
    · intro before hbefore
      have hmore := hfirst (c :: before) (List.cons_prefix_cons.2 ⟨rfl, hbefore⟩)
      rw [hcount ')' before, hcount '(' before] at hmore
      omega
    · rw [hcount ')' cs, hcount '(' cs] at hall
      omega
  · intro ⟨hone, hfirst, hall⟩
    refine ⟨?_, ?_⟩
    · intro before hbefore
      rcases List.prefix_cons_iff.1 hbefore with rfl | ⟨after, rfl, hafter⟩
      · exact Nat.zero_le _
      · have hmore := hfirst after hafter
        rw [hcount ')' after, hcount '(' after]
        omega
    · rw [hcount ')' cs, hcount '(' cs]
      omega

/-- An opening parenthesis opens one more. -/
theorem closes_open_iff : Closes n ('(' :: cs) ↔ Closes (n + 1) cs := by
  simp [closes_cons_iff]

/-- A closing parenthesis closes one of those that are open. -/
theorem closes_close_iff : Closes (n + 1) (')' :: cs) ↔ Closes n cs := by
  simp [closes_cons_iff]

/-- Nothing open can be closed. -/
theorem not_closes_stray : ¬Closes 0 (')' :: cs) := by
  simp [closes_cons_iff]

/-- Other characters open and close nothing. -/
theorem closes_other_iff (hopen : c ≠ '(') (hclose : c ≠ ')') :
    Closes n (c :: cs) ↔ Closes n cs := by
  simp [closes_cons_iff, hopen, hclose]

/-- Characters that are no parentheses are passed over. -/
theorem closes_append_iff {q : List Char} (hq : ∀ c ∈ q, c ≠ '(' ∧ c ≠ ')') :
    Closes n (q ++ cs) ↔ Closes n cs := by
  induction q with
  | nil => exact Iff.rfl
  | cons c q ih =>
    obtain ⟨hopen, hclose⟩ := hq c List.mem_cons_self
    rw [List.cons_append, closes_other_iff hopen hclose]
    exact ih fun c' hc' => hq c' (List.mem_cons_of_mem c hc')

/-! ## The pass over a text -/

variable {index : Nat} {unclosed : List Nat} {pairs : OrdMap Nat Nat}

/-- The pass goes through to the end if the rest closes what is not paired up yet. By induction on
the calls: what a character does to the parentheses that are open is what it does to their
number. -/
theorem exists_pairRest_iff :
    (∃ pairs', pairRest index unclosed pairs cs = .ok pairs') ↔ Closes unclosed.length cs := by
  fun_induction pairRest index unclosed pairs cs with
  | case1 index pairs => simp [closes_nil_iff]
  | case2 index pairs i unclosed => simp [closes_nil_iff]
  | case3 index unclosed pairs cs ih => rw [ih, closes_open_iff, List.length_cons]
  | case4 index pairs cs => simp [not_closes_stray]
  | case5 index pairs cs i unclosed _ ih => rw [ih, List.length_cons, closes_close_iff]
  | case6 index unclosed pairs c cs hopen hclose ih => rw [ih, closes_other_iff hopen hclose]

/-- All parentheses of a text find a partner if and only if they are balanced. -/
theorem exists_pair_iff : (∃ pairs, pair cs = .ok pairs) ↔ Balanced cs := by
  rw [pair, exists_pairRest_iff, List.length_nil, closes_zero_iff]

/-- A parenthesis without a partner is reported where it stands. -/
inductive Unpaired (text : List Char) : SyntaxError → Prop where
  | closing {p : Nat} (found : text[p]? = some ')') : Unpaired text ⟨.unmatchedClosing, p⟩
  | opening {p : Nat} (found : text[p]? = some '(') : Unpaired text ⟨.neverClosed, p⟩

/-- Where the rest of a text starts with a character, that character stands. -/
theorem of_drop_eq_cons {text : List Char} (h : text.drop index = c :: cs) :
    text[index]? = some c ∧ text.drop (index + 1) = cs := by
  constructor
  · rw [← List.head?_drop, h, List.head?_cons]
  · rw [← List.tail_drop, h, List.tail_cons]

/-- Where the pass stops, a parenthesis without a partner stands: the closing one that was met last,
or the opening one that was put down last, at the place that was noted for it. -/
theorem unpaired_of_pairRest {text : List Char} {e : SyntaxError} (hrest : text.drop index = cs)
    (hunclosed : ∀ i ∈ unclosed, text[i]? = some '(')
    (h : pairRest index unclosed pairs cs = .error e) : Unpaired text e := by
  fun_induction pairRest index unclosed pairs cs with
  | case1 => cases h
  | case2 index pairs i unclosed =>
    obtain rfl := Except.error.inj h
    exact .opening (hunclosed i List.mem_cons_self)
  | case3 index unclosed pairs cs ih =>
    obtain ⟨hhere, hrest⟩ := of_drop_eq_cons hrest
    exact ih hrest (List.forall_mem_cons.2 ⟨hhere, hunclosed⟩) h
  | case4 index pairs cs =>
    obtain rfl := Except.error.inj h
    exact .closing (of_drop_eq_cons hrest).1
  | case5 index pairs cs i unclosed _ ih =>
    exact ih (of_drop_eq_cons hrest).2 (List.forall_mem_cons.1 hunclosed).2 h
  | case6 index unclosed pairs c cs _ _ ih => exact ih (of_drop_eq_cons hrest).2 hunclosed h

/-- So the parenthesis that is reported for a whole text stands where it is reported. -/
theorem unpaired_of_pair {e : SyntaxError} (h : pair cs = .error e) : Unpaired cs e := by
  have hrest : cs.drop 0 = cs := rfl
  exact unpaired_of_pairRest hrest (List.forall_mem_nil _) h

end Parens

end PatternAutomata
