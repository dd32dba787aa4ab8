/-
The words that a tree describes.

A tree describes a language over labels: a letter its one word, a sequence the words put
together from a word of each part, a choice the words of any option, and a repetition
the words put together from an allowed number of words of its body. The letter that reads
nothing describes the empty word.

What a tree describes does not depend on where it was read from (`language_eq_of_same`),
and a repetition describes what the tree describes that it unfolds to
(`language_unfolded`).
-/
import Mathlib.Computability.Language
import Mathlib.Order.CompletePartialOrder
import PatternAutomata.Syntax.Tree

set_option autoImplicit false

namespace PatternAutomata

/-! ## Ranges of repetition -/

namespace Bounds

/-- A number is in a range if it is between the least and the greatest count. -/
instance : Membership Nat Bounds := ⟨fun b n => b.lo ≤ n ∧ ∀ hi ∈ b.hi, n ≤ hi⟩

theorem mem_iff {b : Bounds} {n : Nat} : n ∈ b ↔ b.lo ≤ n ∧ ∀ hi ∈ b.hi, n ≤ hi := Iff.rfl

/-- The words put together from an allowed number of words of a language. -/
def powers (b : Bounds) (L : Language Label) : Language Label :=
  ⨆ n : { n : Nat // n ∈ b }, L ^ n.val

/-- A word is in the powers of a language if it is put together from an allowed number of its
words. -/
theorem mem_powers {b : Bounds} {L : Language Label} {word : List Label} :
    word ∈ b.powers L ↔ ∃ n ∈ b, word ∈ L ^ n := by
  rw [powers, Language.mem_iSup]
  constructor
  · intro ⟨⟨n, hn⟩, h⟩
    exact ⟨n, hn, h⟩
  · intro ⟨n, hn, h⟩
    exact ⟨⟨n, hn⟩, h⟩

end Bounds

/-! ## Trees -/

namespace Tree

mutual

/-- The words that a tree describes. -/
def language : Tree → Language Label
  | char .epsilon _ => 1
  | char (.symbol s) _ => {[.symbol s]}
  | concat parts _ => languageOfSequence parts
  | group inner _ => language inner
  | either l r _ => language l + language r
  | anyOf options .. => languageOfChoice options
  | repeated b body .. => b.powers (language body)

/-- The words put together from a word of each of some trees. -/
def languageOfSequence : List Tree → Language Label
  | [] => 1
  | t :: ts => language t * languageOfSequence ts

/-- The words that any of some trees describes. -/
def languageOfChoice : List Tree → Language Label
  | [] => 0
  | t :: ts => language t + languageOfChoice ts

end

mutual

/-- Trees that are the same pattern describe the same words, wherever they were read from. By
recursion over the tree on the left; the comparison has already shown the other one to be of the
same kind. -/
theorem language_eq_of_same {s t : Tree} (h : same s t = true) : language s = language t := by
  cases s <;> cases t <;>
    simp only [↓same_either, same, Bool.false_eq_true, decide_eq_true_eq, Bool.and_eq_true] at h
  case char.char a _ b _ =>
    rw [h]
    cases b <;> simp only [language]
  case concat.concat ps _ qs _ =>
    rw [language, language]
    exact languageOfSequence_eq_of_sameAll h
  case group.group s _ t _ =>
    rw [language, language]
    exact language_eq_of_same h
  case either.either l r _ l' r' _ =>
    rw [language, language, language_eq_of_same h.1, language_eq_of_same h.2]
  case anyOf.anyOf ps _ _ qs _ _ =>
    rw [language, language]
    exact languageOfChoice_eq_of_sameAll h
  case repeated.repeated b s _ _ c t _ _ =>
    rw [language, language, h.1, language_eq_of_same h.2]

/-- The same for parts in sequence, one part after the other. -/
theorem languageOfSequence_eq_of_sameAll {ss ts : List Tree} (h : sameAll ss ts = true) :
    languageOfSequence ss = languageOfSequence ts := by
  cases ss <;> cases ts <;> simp only [sameAll, Bool.false_eq_true, Bool.and_eq_true] at h
  case nil.nil => rfl
  case cons.cons s ss t ts =>
    rw [languageOfSequence, languageOfSequence, language_eq_of_same h.1,
      languageOfSequence_eq_of_sameAll h.2]

/-- And for options side by side. -/
theorem languageOfChoice_eq_of_sameAll {ss ts : List Tree} (h : sameAll ss ts = true) :
    languageOfChoice ss = languageOfChoice ts := by
  cases ss <;> cases ts <;> simp only [sameAll, Bool.false_eq_true, Bool.and_eq_true] at h
  case nil.nil => rfl
  case cons.cons s ss t ts =>
    rw [languageOfChoice, languageOfChoice, language_eq_of_same h.1,
      languageOfChoice_eq_of_sameAll h.2]

end

/-! ## Unfolded repetitions -/

/-- Two runs of parts one after the other describe the words of the first followed by those of the
second. -/
theorem languageOfSequence_append (ts us : List Tree) :
    languageOfSequence (ts ++ us) = languageOfSequence ts * languageOfSequence us := by
  induction ts with
  | nil => rw [List.nil_append, languageOfSequence, one_mul]
  | cons t ts ih => rw [List.cons_append, languageOfSequence, languageOfSequence, ih, mul_assoc]

/-- Two rows of options describe what either row describes. -/
theorem languageOfChoice_append (ts us : List Tree) :
    languageOfChoice (ts ++ us) = languageOfChoice ts + languageOfChoice us := by
  induction ts with
  | nil => rw [List.nil_append, languageOfChoice, zero_add]
  | cons t ts ih => rw [List.cons_append, languageOfChoice, languageOfChoice, ih, add_assoc]

/-- Copies in sequence describe a power: as many words of the body as there are copies. -/
theorem languageOfSequence_replicate (n : Nat) (t : Tree) :
    languageOfSequence (List.replicate n t) = language t ^ n := by
  induction n with
  | zero => rw [List.replicate_zero, languageOfSequence, pow_zero]
  | succ n ih => rw [List.replicate_succ, languageOfSequence, ih, pow_succ']

/-- A single tree in sequence describes what it describes alone. -/
theorem languageOfSequence_singleton (t : Tree) : languageOfSequence [t] = language t := by
  rw [languageOfSequence, languageOfSequence, mul_one]

/-- A choice describes what some option describes. -/
theorem mem_languageOfChoice {ts : List Tree} {word : List Label} :
    word ∈ languageOfChoice ts ↔ ∃ t ∈ ts, word ∈ language t := by
  induction ts with
  | nil =>
    rw [languageOfChoice]
    exact iff_of_false (Language.notMem_zero word) (by simp)
  | cons t ts ih => rw [languageOfChoice, Language.mem_add, ih, List.exists_mem_cons_iff]

/-- A chain that leans to the right describes the same as its options side by side, wherever its
bars stand. -/
theorem language_chainFrom (pipe : Option Int) (t : Tree) (ts : List Tree) :
    language (chainOf?.chainFrom pipe t ts) = languageOfChoice (t :: ts) := by
  induction ts generalizing t with
  | nil => rw [chainOf?.chainFrom, languageOfChoice, languageOfChoice, add_zero]
  | cons u us ih => rw [chainOf?.chainFrom, language, ih, languageOfChoice.eq_2 t]

/-- A chain of options describes what any option describes. There must be an option: no options make
no chain, and in a sequence the missing part stands for the empty word, not for no word at all. -/
theorem languageOfSequence_chainOf? (pipe : Option Int) {ts : List Tree} (hts : ts ≠ []) :
    languageOfSequence (chainOf? pipe ts).toList = languageOfChoice ts := by
  cases ts with
  | nil => exact absurd rfl hts
  | cons t ts =>
    rw [chainOf?, Option.toList, languageOfSequence_singleton, language_chainFrom]

/-- What a repetition unfolds to describes what its parts describe in sequence. A single part stands
for itself and is not wrapped, which makes no difference to the words. -/
theorem language_unfolded_eq (b : Bounds) (body : Tree) :
    language (unfolded b body) = languageOfSequence (unfoldedParts b body) := by
  rw [unfolded]
  split
  · next t ht => rw [ht, languageOfSequence_singleton]
  · rw [language]

/-- Some copies of a body, and then as many more as a set of numbers allows. The counts add up, so
that only the second part needs to be looked at (`mem_furtherParts_iff`). -/
theorem mem_pow_mul_iff {L M : Language Label} {lo : Nat} {further : Nat → Prop}
    (hM : ∀ rest, rest ∈ M ↔ ∃ n, further n ∧ rest ∈ L ^ n) {word : List Label} :
    word ∈ L ^ lo * M ↔ ∃ n, further n ∧ word ∈ L ^ (lo + n) := by
  rw [Language.mem_mul]
  constructor
  · intro ⟨first, hfirst, rest, hrest, e⟩
    obtain ⟨n, hn, hpow⟩ := (hM rest).1 hrest
    refine ⟨n, hn, ?_⟩
    rw [pow_add, Language.mem_mul]
    exact ⟨first, hfirst, rest, hpow, e⟩
  · intro ⟨n, hn, hword⟩
    rw [pow_add, Language.mem_mul] at hword
    obtain ⟨first, hfirst, rest, hrest, e⟩ := hword
    exact ⟨first, hfirst, rest, (hM rest).2 ⟨n, hn, hrest⟩, e⟩

/-- What stands for further copies describes the words of as many copies as the range has left. If
the range has no end these are all counts; otherwise one option was made for each count, and if
nothing is left there is no part at all. -/
theorem mem_furtherParts_iff (b : Bounds) (body : Tree) (word : List Label) :
    word ∈ languageOfSequence (furtherParts b body) ↔
      ∃ n, (∀ hi ∈ b.hi, n ≤ hi - b.lo) ∧ word ∈ language body ^ n := by
  rw [furtherParts]
  cases b.hi with
  | none =>
    rw [languageOfSequence_singleton, star, language, Bounds.mem_powers]
    constructor
    · intro ⟨n, _, h⟩
      exact ⟨n, nofun, h⟩
    · intro ⟨n, _, h⟩
      exact ⟨n, ⟨Nat.zero_le n, nofun⟩, h⟩
  | some hi =>
    simp only [Option.mem_some_iff, forall_eq']
    by_cases hlt : b.lo < hi
    -- one option for each number of further copies, from none on
    · rw [if_pos hlt, languageOfSequence_chainOf? none (by simp), mem_languageOfChoice]
      constructor
      · intro ⟨t, ht, h⟩
        obtain ⟨n, hn, rfl⟩ := List.mem_map.1 ht
        rw [language, languageOfSequence_replicate] at h
        have := List.mem_range.1 hn
        exact ⟨n, by omega, h⟩
      · intro ⟨n, hn, h⟩
        refine ⟨_, List.mem_map.2 ⟨n, List.mem_range.2 (by omega), rfl⟩, ?_⟩
        rwa [language, languageOfSequence_replicate]
    -- the range ends where it begins, and only the count of no further copies remains
    · rw [if_neg hlt, languageOfSequence]
      constructor
      · intro h
        exact ⟨0, Nat.zero_le _, by rwa [pow_zero]⟩
      · intro ⟨n, hn, h⟩
        have hzero : n = 0 := by omega
        rwa [hzero, pow_zero] at h

/-- A repetition describes what the tree describes that it unfolds to: the required copies, and then
the further ones. This is what allows a repetition to be built by unfolding it first. -/
theorem language_unfolded (b : Bounds) (body : Tree) :
    language (unfolded b body) = b.powers (language body) := by
  ext word
  rw [language_unfolded_eq, unfoldedParts, languageOfSequence_append,
    languageOfSequence_replicate, Bounds.mem_powers,
    mem_pow_mul_iff (mem_furtherParts_iff b body)]
  constructor
  · intro ⟨n, hn, h⟩
    refine ⟨b.lo + n, ⟨by omega, ?_⟩, h⟩
    intro hi hhi
    have := hn hi hhi
    have := b.lo_le_hi hi hhi
    omega
  · intro ⟨n, ⟨hlo, hmax⟩, h⟩
    refine ⟨n - b.lo, ?_, by rwa [Nat.add_sub_cancel' hlo]⟩
    intro hi hhi
    have := hmax hi hhi
    omega

end Tree

end PatternAutomata
