/-
The letters that the words of a pattern are spelled with.

A repetition may allow no copies of its body. The letters of such a body occur in the tree, but
in no word that it describes. All other letters of a tree that was read from a pattern occur in
some word (`Tree.spells_language_iff`), so the alphabet of the words (`Tree.spelled`) is part of
the alphabet of the tree, and is all of it if every repetition allows a copy.
-/
import PatternAutomata.Proofs.Patterns.Written

set_option autoImplicit false

namespace PatternAutomata

/-! ## Languages

Which letters the words of a language have, for each way to put languages together. -/

/-- A word of the language has the letter in it. -/
def Spells (L : Language Label) (l : Label) : Prop := ∃ word ∈ L, l ∈ word

section Languages

variable {L M : Language Label} {l : Label}

/-- The empty word has no letters. -/
theorem not_spells_one : ¬Spells 1 l := by
  rintro ⟨word, hword, hl⟩
  rw [(Language.mem_one word).1 hword] at hl
  exact List.not_mem_nil hl

/-- The letters of a union are those of both languages. -/
theorem spells_add : Spells (L + M) l ↔ Spells L l ∨ Spells M l := by
  constructor
  · rintro ⟨word, hword, hl⟩
    rcases (Language.mem_add L M word).1 hword with hword | hword
    · exact Or.inl ⟨word, hword, hl⟩
    · exact Or.inr ⟨word, hword, hl⟩
  · rintro (⟨word, hword, hl⟩ | ⟨word, hword, hl⟩)
    · exact ⟨word, (Language.mem_add L M word).2 (Or.inl hword), hl⟩
    · exact ⟨word, (Language.mem_add L M word).2 (Or.inr hword), hl⟩

/-- A letter of one factor is in a word of the product, if the other factor has a word to put
beside it. -/
theorem spells_mul (hL : ∃ word, word ∈ L) (hM : ∃ word, word ∈ M) :
    Spells (L * M) l ↔ Spells L l ∨ Spells M l := by
  constructor
  · rintro ⟨word, hword, hl⟩
    obtain ⟨x, hx, y, hy, rfl⟩ := Language.mem_mul.1 hword
    rcases List.mem_append.1 hl with hl | hl
    · exact Or.inl ⟨x, hx, hl⟩
    · exact Or.inr ⟨y, hy, hl⟩
  · rintro (⟨x, hx, hl⟩ | ⟨y, hy, hl⟩)
    · obtain ⟨y, hy⟩ := hM
      exact ⟨x ++ y, Language.append_mem_mul hx hy, List.mem_append_left y hl⟩
    · obtain ⟨x, hx⟩ := hL
      exact ⟨x ++ y, Language.append_mem_mul hx hy, List.mem_append_right x hl⟩

/-- If a language has a word, so have all its powers. -/
theorem exists_mem_pow (hL : ∃ word, word ∈ L) (n : Nat) : ∃ word, word ∈ L ^ n := by
  induction n with
  | zero => exact ⟨[], (Language.mem_one []).2 rfl⟩
  | succ n ih =>
    obtain ⟨x, hx⟩ := ih
    obtain ⟨y, hy⟩ := hL
    rw [pow_succ]
    exact ⟨x ++ y, Language.append_mem_mul hx hy⟩

/-- The letters of a power are those of the language, unless the exponent is zero. -/
theorem spells_pow (hL : ∃ word, word ∈ L) (n : Nat) :
    Spells (L ^ n) l ↔ n ≠ 0 ∧ Spells L l := by
  induction n with
  | zero => exact iff_of_false not_spells_one fun h => h.1 rfl
  | succ n ih =>
    rw [pow_succ, spells_mul (exists_mem_pow hL n) hL, ih]
    constructor
    · rintro (⟨_, hl⟩ | hl)
      · exact ⟨Nat.succ_ne_zero n, hl⟩
      · exact ⟨Nat.succ_ne_zero n, hl⟩
    · exact fun h => Or.inr h.2

/-- The letters of a repetition are those of its body, unless no copies are allowed. -/
theorem spells_powers (b : Bounds) (hL : ∃ word, word ∈ L) :
    Spells (b.powers L) l ↔ b.hi ≠ some 0 ∧ Spells L l := by
  -- the words of a repetition are those of the powers that its range allows
  have hpowers : Spells (b.powers L) l ↔ ∃ n ∈ b, Spells (L ^ n) l := by
    constructor
    · rintro ⟨word, hword, hl⟩
      obtain ⟨n, hn, hword⟩ := Bounds.mem_powers.1 hword
      exact ⟨n, hn, word, hword, hl⟩
    · rintro ⟨n, hn, word, hword, hl⟩
      exact ⟨word, Bounds.mem_powers.2 ⟨n, hn, hword⟩, hl⟩
  rw [hpowers]
  constructor
  · rintro ⟨n, ⟨_, hmax⟩, hspells⟩
    obtain ⟨hn, hl⟩ := (spells_pow hL n).1 hspells
    refine ⟨?_, hl⟩
    intro hhi
    exact hn (Nat.le_zero.1 (hmax 0 hhi))
  · rintro ⟨hhi, hl⟩
    -- as few copies as are allowed, but at least one
    refine ⟨max b.lo 1, ⟨Nat.le_max_left _ _, ?_⟩, (spells_pow hL _).2 ⟨by omega, hl⟩⟩
    intro hi hmem
    refine Nat.max_le.2 ⟨b.lo_le_hi hi hmem, Nat.one_le_iff_ne_zero.2 ?_⟩
    rintro rfl
    exact hhi hmem

end Languages

/-! ## Trees -/

namespace Tree

mutual

/-- The letters of a tree that are not under a repetition that allows no copies. These are the
letters that count for the alphabet of an automaton, while `letters` has all that are written. -/
def spelled : Tree → Alphabet
  | char label _ => {label}
  | concat parts _ => spelledByAll parts
  | group inner _ => spelled inner
  | either l r _ => spelled l ∪ spelled r
  | anyOf options .. => spelledByAll options
  | repeated b body .. => if b.hi = some 0 then ∅ else spelled body

/-- The letters of some trees that are not under a repetition that allows no copies. -/
def spelledByAll : List Tree → Alphabet
  | [] => ∅
  | t :: ts => spelled t ∪ spelledByAll ts

end

/-- A written tree describes a word. Its fragment can be built without waste, so its start state
leads to an accepting one. -/
theorem exists_mem_language {t : Tree} (h : t.Written) : ∃ word, word ∈ t.language :=
  (t.builds (fun _ : True => t.feasible_of_written h) ⟨{}, 0⟩).toRecognizes.exists_word trivial

/-- Written trees describe a word in sequence. -/
theorem exists_mem_languageOfSequence {ts : List Tree} (h : AllWritten ts) :
    ∃ word, word ∈ languageOfSequence ts := by
  have hwritten : (concat ts .unknown).Written := by
    rw [Written]
    exact h
  have hword := exists_mem_language hwritten
  rwa [language] at hword

mutual

/-- The words that a written tree describes are spelled with its letters, without those that only a
repetition of no copies has. By induction on the tree. That each part describes some word is needed
where parts stand in sequence: a letter of one part is in a word only if the other parts have words
to put beside it. -/
theorem spells_language_iff {l : Label} (t : Tree) (h : t.Written) :
    Spells t.language l ↔ l ∈ t.spelled := by
  match t with
  | char k _ =>
    obtain ⟨c, rfl⟩ : ∃ c, k = .ofChar c := by simpa only [Written] using h
    rw [Label.ofChar, language, spelled, OrdSet.mem_singleton]
    constructor
    · rintro ⟨word, hword, hl⟩
      rw [show word = [Label.ofChar c] from hword] at hl
      exact List.mem_singleton.1 hl
    · rintro rfl
      exact ⟨[_], rfl, List.mem_singleton_self _⟩
  | concat parts _ =>
    rw [language, spelled]
    exact spells_sequence_iff parts (by simpa only [Written] using h)
  | group inner _ =>
    rw [language, spelled]
    exact spells_language_iff inner (by simpa only [Written] using h)
  | either l r _ =>
    obtain ⟨hl, hr⟩ : l.Written ∧ r.Written := by simpa only [Written] using h
    rw [language, spelled, spells_add, spells_language_iff l hl, spells_language_iff r hr,
      OrdSet.mem_union]
  | anyOf options _ _ =>
    obtain ⟨_, hall⟩ : options ≠ [] ∧ AllWritten options := by simpa only [Written] using h
    rw [language, spelled]
    exact spells_choice_iff options hall
  | repeated b body _ _ =>
    have hbody : body.Written := by simpa only [Written] using h
    rw [language, spelled, spells_powers b (exists_mem_language hbody),
      spells_language_iff body hbody]
    split
    · next hhi => exact iff_of_false (fun h => h.1 hhi) (OrdSet.not_mem_empty l)
    · next hhi => exact and_iff_right hhi

/-- The same for some trees in sequence. -/
theorem spells_sequence_iff {l : Label} (ts : List Tree) (h : AllWritten ts) :
    Spells (languageOfSequence ts) l ↔ l ∈ spelledByAll ts := by
  match ts with
  | [] =>
    rw [languageOfSequence, spelledByAll]
    exact iff_of_false not_spells_one (OrdSet.not_mem_empty l)
  | t :: ts =>
    obtain ⟨ht, hts⟩ : t.Written ∧ AllWritten ts := by simpa only [AllWritten] using h
    rw [languageOfSequence, spelledByAll,
      spells_mul (exists_mem_language ht) (exists_mem_languageOfSequence hts),
      spells_language_iff t ht, spells_sequence_iff ts hts, OrdSet.mem_union]

/-- The same for a choice between some trees. None of them needs to have a word for the others to
count. -/
theorem spells_choice_iff {l : Label} (ts : List Tree) (h : AllWritten ts) :
    Spells (languageOfChoice ts) l ↔ l ∈ spelledByAll ts := by
  match ts with
  | [] =>
    rw [languageOfChoice, spelledByAll]
    refine iff_of_false ?_ (OrdSet.not_mem_empty l)
    rintro ⟨word, hword, _⟩
    exact Language.notMem_zero word hword
  | t :: ts =>
    obtain ⟨ht, hts⟩ : t.Written ∧ AllWritten ts := by simpa only [AllWritten] using h
    rw [languageOfChoice, spelledByAll, spells_add, spells_language_iff t ht,
      spells_choice_iff ts hts, OrdSet.mem_union]

end

end Tree

/-- Where ranges are not written in braces, all letters of a pattern are spelled. Each of the other
quantifiers allows at least one copy. -/
theorem keeps_spelled {d : Dialect} (hd : d.boundedRepetition = false) :
    d.Keeps fun t => t.spelled = t.letters := by
  have hall : ∀ ts : List Tree, (∀ t ∈ ts, t.spelled = t.letters) →
      Tree.spelledByAll ts = Tree.lettersOfAll ts := by
    intro ts h
    induction ts with
    | nil => rfl
    | cons t ts ih =>
      rw [Tree.spelledByAll, Tree.lettersOfAll, h t List.mem_cons_self,
        ih fun u hu => h u (List.mem_cons_of_mem t hu)]
  refine ⟨?_, ?_, ?_, ?_, ?_, ?_⟩
  · intro c place
    rw [Tree.spelled, Tree.letters]
  · intro ts span h
    rw [Tree.spelled, Tree.letters, hall ts h]
  · intro t span h
    rwa [Tree.spelled, Tree.letters]
  · intro l r pipe hl hr
    rw [Tree.spelled, Tree.letters, hl, hr]
  · intro ts pipes span _ h
    rw [Tree.spelled, Tree.letters, hall ts h]
  · intro q b t spelling span hq h
    -- a range in braces is none of the grammar here
    have hhi : b.hi ≠ some 0 := by
      cases hq with
      | star | plus | optional => decide
      | exactly bounded | atLeast bounded | between bounded =>
        rw [hd] at bounded
        exact absurd bounded Bool.false_ne_true
    rwa [Tree.spelled, if_neg hhi, Tree.letters]

/-- Where ranges are not written in braces, all letters of a tree that was read are spelled. -/
theorem Parser.spelled_of_parse {d : Dialect} {s : String} {t : Tree}
    (hd : d.boundedRepetition = false) (h : parse d s = .ok t) : t.spelled = t.letters :=
  (derives_of_parse h).all (keeps_spelled hd)

end PatternAutomata
