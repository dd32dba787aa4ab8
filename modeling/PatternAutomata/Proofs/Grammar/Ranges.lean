/-
Ranges of repetition as they are written.

The characters between two braces are taken apart at the first comma. What is found to be a
range in this way is what the grammar calls one (`quantifier_of_counts`), and every quantifier
of the grammar is either a single character or found to be such a range
(`Quantifier.single_or_range`).
-/
import Mathlib.Data.List.TakeWhile
import PatternAutomata.Proofs.Grammar.Phrases

set_option autoImplicit false

namespace PatternAutomata

namespace Parser

variable {d : Dialect} {place lo : Nat} {hi : Option Nat} {low high body : List Char}

/-- Numerals are what is recognised as a count and read as a number. Not all that is recognised can
be read, so both are asked for. -/
theorem count_iff {cs : List Char} {n : Nat} :
    isCount cs = true ∧ count cs = .ok n ↔ Numeral cs n := by
  have hcount : count cs = .ok n ↔ Text.numeral? cs = some n := by
    rw [count]
    cases Text.numeral? cs <;> simp
  rw [hcount, numeral_iff]
  constructor
  · rintro ⟨h, hn⟩
    refine ⟨?_, hn⟩
    rintro rfl
    nomatch h
  · rintro ⟨hne, hn⟩
    refine ⟨?_, hn⟩
    have hdecimal : ∀ c ∈ cs, Text.isDecimal c = true :=
      Text.numeral?_isSome.1 (by rw [hn]; rfl)
    rw [isCount, Bool.and_eq_true, List.all_eq_true]
    exact ⟨by simpa using hne, fun c hc => Text.isDigit_of_isDecimal (hdecimal c hc)⟩

/-- A numeral has no comma, no brace and no parenthesis in it, as these are no digits. -/
theorem not_mem_numeral {cs : List Char} {n : Nat} (h : Numeral cs n) {c : Char}
    (hc : Text.isDecimal c = false) : c ∉ cs := by
  intro hmem
  rw [h.isDecimal c hmem] at hc
  nomatch hc

/-- A comma is no digit. -/
theorem isDecimal_comma : Text.isDecimal ',' = false := by decide

/-- No comma is met in characters among which there is none. -/
theorem forall_ne_comma {cs : List Char} (h : ',' ∉ cs) : ∀ c ∈ cs, decide (c ≠ ',') = true := by
  intro c hc
  refine decide_eq_true ?_
  rintro rfl
  exact h hc

/-- Without a comma there is one count. -/
theorem countsOfRange_single (h : ',' ∉ body) : countsOfRange place body =
    if isCount body then (count body).map fun n => (n, some n)
    else .error (.malformed ⟨.malformedRange (String.ofList body), place⟩) := by
  have hall := forall_ne_comma h
  rw [countsOfRange, List.takeWhile_eq_self_iff.2 hall, List.dropWhile_eq_nil_iff.2 hall]
  simp only [List.drop_nil, List.isEmpty_nil, Bool.true_or, Bool.and_true, h,
    not_false_eq_true, if_true]
  cases count body <;> rfl

/-- With a comma, what follows it may be missing. The text is cut at the first comma, so what comes
before it must have none. -/
theorem countsOfRange_comma (h : ',' ∉ low) : countsOfRange place (low ++ ',' :: high) =
    if isCount low && (high.isEmpty || isCount high) then
      if high.isEmpty then (count low).map fun n => (n, none)
      else (count low).bind fun n => (count high).map fun k => (n, some k)
    else .error (.malformed ⟨.malformedRange (String.ofList (low ++ ',' :: high)), place⟩) := by
  have hall := forall_ne_comma h
  have htake : (low ++ ',' :: high).takeWhile (· ≠ ',') = low := by
    rw [List.takeWhile_append_of_pos hall]
    simp
  have hdrop : ((low ++ ',' :: high).dropWhile (· ≠ ',')).drop 1 = high := by
    rw [List.dropWhile_append_of_pos hall]
    simp
  have hcomma : ',' ∈ low ++ ',' :: high := by simp
  rw [countsOfRange, htake, hdrop]
  simp only [hcomma, not_true_eq_false, if_false]
  split
  · cases count low with
    | error => cases high <;> rfl
    | ok n =>
      cases high with
      | nil => rfl
      | cons c cs => cases count (c :: cs) <;> rfl
  · rfl

/-- Two numbers that are accepted as a range make the range of these numbers. -/
theorem eq_of_ofNats {b : Bounds} (h : Bounds.ofNats lo hi = .ok b) :
    ∃ le, b = ⟨lo, hi, le⟩ := by
  cases hi with
  | none => exact ⟨_, (Except.ok.inj h).symm⟩
  | some k =>
    rw [Bounds.ofNats] at h
    split at h
    · exact ⟨_, (Except.ok.inj h).symm⟩
    · cases h

/-- The counts that are read between two braces are written there: one that stands alone, one that a
comma follows, or two with a comma between them. -/
theorem numerals_of_counts (hcounts : countsOfRange place body = .ok (lo, hi)) :
    (Numeral body lo ∧ hi = some lo) ∨ ∃ low high, body = low ++ ',' :: high ∧ Numeral low lo ∧
      (high = [] ∧ hi = none ∨ ∃ k, Numeral high k ∧ hi = some k) := by
  -- a comma decides between one count and two
  by_cases hcomma : ',' ∈ body
  · obtain ⟨low, high, rfl, hlow⟩ := List.eq_append_cons_of_mem hcomma
    refine Or.inr ⟨low, high, rfl, ?_⟩
    rw [countsOfRange_comma hlow] at hcounts
    split at hcounts
    · next hform =>
      rw [Bool.and_eq_true, Bool.or_eq_true] at hform
      cases hn : count low with
      | error e =>
        rw [hn] at hcounts
        split at hcounts <;> cases hcounts
      | ok n =>
        rw [hn] at hcounts
        split at hcounts
        · next hempty =>
          obtain ⟨rfl, rfl⟩ := Prod.mk.inj (Except.ok.inj hcounts)
          exact ⟨count_iff.1 ⟨hform.1, hn⟩, Or.inl ⟨List.isEmpty_iff.1 hempty, rfl⟩⟩
        · next hempty =>
          cases hk : count high with
          | error e =>
            rw [hk] at hcounts
            cases hcounts
          | ok k =>
            rw [hk] at hcounts
            obtain ⟨rfl, rfl⟩ := Prod.mk.inj (Except.ok.inj hcounts)
            exact ⟨count_iff.1 ⟨hform.1, hn⟩,
              Or.inr ⟨k, count_iff.1 ⟨hform.2.resolve_left hempty, hk⟩, rfl⟩⟩
    · cases hcounts
  · rw [countsOfRange_single hcomma] at hcounts
    split at hcounts
    · next hform =>
      cases hn : count body with
      | error e =>
        rw [hn] at hcounts
        cases hcounts
      | ok n =>
        rw [hn] at hcounts
        obtain ⟨rfl, rfl⟩ := Prod.mk.inj (Except.ok.inj hcounts)
        exact Or.inl ⟨count_iff.1 ⟨hform, hn⟩, rfl⟩
    · cases hcounts

/-- A range between braces that is read is a quantifier. -/
theorem quantifier_of_counts {b : Bounds} (bounded : d.boundedRepetition = true)
    (hcounts : countsOfRange place body = .ok (lo, hi)) (hb : Bounds.ofNats lo hi = .ok b) :
    Quantifier d ('\x7b' :: body ++ ['\x7d']) b := by
  obtain ⟨le, rfl⟩ := eq_of_ofNats hb
  rcases numerals_of_counts hcounts with
    ⟨hlo, rfl⟩ | ⟨low, high, rfl, hlow, ⟨rfl, rfl⟩ | ⟨k, hhigh, rfl⟩⟩
  · exact .exactly bounded hlo
  · exact .atLeast bounded hlow
  · exact .between bounded hlow hhigh (le k rfl)

/-- The three characters that repeat are quantifiers. -/
theorem quantifier_of_char {c : Char} {b : Bounds} (h : boundsOfChar? c = some b) :
    Quantifier d [c] b := by
  rw [boundsOfChar?] at h
  split at h
  · next hc =>
    obtain rfl := Option.some.inj h
    rw [hc]
    exact .plus
  split at h
  · next hc =>
    obtain rfl := Option.some.inj h
    rw [hc]
    exact .star
  split at h
  · next hc =>
    obtain rfl := Option.some.inj h
    rw [hc]
    exact .optional
  · cases h

/-! ## From the grammar to what is read -/

/-- Characters that may stand between the braces of a range. -/
def IsRange (body : List Char) : Prop := ∀ c ∈ body, Text.isDecimal c = true ∨ c = ','

/-- The first brace that closes is found, since no parenthesis is in the way. -/
theorem splitRange_eq (h : IsRange body) (rest : List Char) :
    splitRange 0 (body ++ '\x7d' :: rest) = some (body, rest) := by
  induction body with
  | nil =>
    rw [List.nil_append, splitRange, if_pos rfl]
  | cons c body ih =>
    have hc := h c List.mem_cons_self
    have hne : c ≠ '\x7d' ∧ c ≠ '(' ∧ c ≠ ')' := by
      rcases hc with hc | rfl
      · refine ⟨?_, ?_, ?_⟩ <;>
          · rintro rfl
            exact absurd hc (by decide)
      · decide
    rw [List.cons_append, splitRange, if_neg hne.1, if_neg hne.2.1, if_neg hne.2.2,
      ih fun c' hc' => h c' (List.mem_cons_of_mem c hc')]
    rfl

/-- Every quantifier is a single character or a range in braces that is read as such. One case for
each way of writing a quantifier. -/
theorem Quantifier.single_or_range {q : List Char} {b : Bounds} (h : Quantifier d q b)
    (place : Nat) : (∃ c, q = [c] ∧ (c = '+' ∨ c = '*' ∨ c = '?') ∧ boundsOfChar? c = some b) ∨
      ∃ body lo hi, q = '\x7b' :: body ++ ['\x7d'] ∧ d.boundedRepetition = true ∧ IsRange body ∧
        countsOfRange place body = .ok (lo, hi) ∧ Bounds.ofNats lo hi = .ok b := by
  cases h with
  | star => exact Or.inl ⟨'*', rfl, by decide, rfl⟩
  | plus => exact Or.inl ⟨'+', rfl, by decide, rfl⟩
  | optional => exact Or.inl ⟨'?', rfl, by decide, rfl⟩
  | @exactly low n bounded lo =>
    refine Or.inr ⟨low, n, some n, rfl, bounded, fun c hc => Or.inl (lo.isDecimal c hc), ?_, ?_⟩
    -- there is no comma in a numeral, so what stands in braces is one number
    · obtain ⟨hform, hn⟩ := count_iff.2 lo
      rw [countsOfRange_single (not_mem_numeral lo isDecimal_comma), if_pos hform, hn]
      rfl
    · exact dif_pos (Nat.le_refl n)
  | @atLeast low n bounded lo =>
    refine Or.inr ⟨low ++ [','], n, none, rfl, bounded, ?_, ?_, rfl⟩
    · intro c hc
      rcases List.mem_append.1 hc with hc | hc
      · exact Or.inl (lo.isDecimal c hc)
      · exact Or.inr (List.mem_singleton.1 hc)
    · obtain ⟨hform, hn⟩ := count_iff.2 lo
      rw [countsOfRange_comma (not_mem_numeral lo isDecimal_comma), hform, hn]
      rfl
  | @between low high n k bounded lo hi le =>
    refine Or.inr ⟨low ++ ',' :: high, n, some k, rfl, bounded, ?_, ?_, ?_⟩
    · intro c hc
      rcases List.mem_append.1 hc with hc | hc
      · exact Or.inl (lo.isDecimal c hc)
      · rcases List.mem_cons.1 hc with rfl | hc
        · exact Or.inr rfl
        · exact Or.inl (hi.isDecimal c hc)
    · obtain ⟨hform, hn⟩ := count_iff.2 lo
      obtain ⟨hform', hk⟩ := count_iff.2 hi
      -- a numeral is not empty, so there is an upper limit
      have hne : high.isEmpty = false := by
        simpa using (numeral_iff.1 hi).1
      rw [countsOfRange_comma (not_mem_numeral lo isDecimal_comma), hform, hform', hn, hk, hne]
      rfl
    · exact dif_pos le

end Parser

end PatternAutomata
