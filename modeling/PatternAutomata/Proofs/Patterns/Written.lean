/-
Trees that patterns are read as.

In a tree that was read from a pattern every letter is a single character and no choice is
without options (`written_of_parse`). Such trees can be built without waste, and the words they
describe are texts.
-/
import PatternAutomata.Proofs.Grammar.Soundness
import PatternAutomata.Proofs.Words.Fragments

set_option autoImplicit false

namespace PatternAutomata

namespace Tree

mutual

/-- Letters are single characters, and choices have options. -/
def Written : Tree → Prop
  | char l _ => ∃ c, l = .ofChar c
  | concat parts _ => AllWritten parts
  | group inner _ => Written inner
  | either l r _ => Written l ∧ Written r
  | anyOf options .. => options ≠ [] ∧ AllWritten options
  | repeated _ body .. => Written body

/-- All of some trees are written ones. -/
def AllWritten : List Tree → Prop
  | [] => True
  | t :: ts => Written t ∧ AllWritten ts

end

/-- All of some trees are written exactly if each of them is. -/
theorem allWritten_iff {ts : List Tree} : AllWritten ts ↔ ∀ t ∈ ts, Written t := by
  induction ts with
  | nil => exact iff_of_true trivial nofun
  | cons t ts ih => rw [AllWritten, ih, List.forall_mem_cons]

mutual

/-- A written tree can be built without waste. What that asks for is that choices have options. -/
theorem feasible_of_written (t : Tree) (h : t.Written) : t.Feasible := by
  match t with
  | char .. => trivial
  | concat parts _ =>
    rw [Feasible]
    exact allFeasible_of_written parts (by simpa only [Written] using h)
  | group inner _ =>
    rw [Feasible]
    exact feasible_of_written inner (by simpa only [Written] using h)
  | either l r _ =>
    obtain ⟨hl, hr⟩ : l.Written ∧ r.Written := by simpa only [Written] using h
    rw [Feasible]
    exact ⟨feasible_of_written l hl, feasible_of_written r hr⟩
  | anyOf options _ _ =>
    obtain ⟨hsome, hall⟩ : options ≠ [] ∧ AllWritten options := by simpa only [Written] using h
    rw [Feasible]
    exact ⟨hsome, allFeasible_of_written options hall⟩
  | repeated _ body _ _ =>
    rw [Feasible]
    exact feasible_of_written body (by simpa only [Written] using h)

/-- The same for some trees. -/
theorem allFeasible_of_written (ts : List Tree) (h : AllWritten ts) : AllFeasible ts := by
  match ts with
  | [] => trivial
  | t :: ts =>
    obtain ⟨ht, hts⟩ : t.Written ∧ AllWritten ts := by simpa only [AllWritten] using h
    rw [AllFeasible]
    exact ⟨feasible_of_written t ht, allFeasible_of_written ts hts⟩

end

/-! ## The words are texts -/

/-- The words that are spelled with characters. -/
def texts : Language Label := { word | ∀ l ∈ word, ∃ c, l = .ofChar c }

/-- A word is a text if each of its letters is a single character. -/
theorem mem_texts {word : List Label} : word ∈ texts ↔ ∀ l ∈ word, ∃ c, l = .ofChar c := Iff.rfl

/-- The words of this language are spelled by texts. By induction on the word, letter by letter. -/
theorem exists_text {word : List Label} (h : word ∈ texts) : ∃ s, word = Label.ofText s := by
  have hchars : ∃ cs : List Char, word = cs.map Label.ofChar := by
    induction word with
    | nil => exact ⟨[], rfl⟩
    | cons l word ih =>
      obtain ⟨c, rfl⟩ := mem_texts.1 h l List.mem_cons_self
      obtain ⟨cs, rfl⟩ := ih fun k hk => h k (List.mem_cons_of_mem _ hk)
      exact ⟨c :: cs, rfl⟩
  obtain ⟨cs, rfl⟩ := hchars
  exact ⟨String.ofList cs, by rw [Label.ofText, String.toList_ofList]⟩

/-- The empty word is the empty text. -/
theorem one_le_texts : (1 : Language Label) ≤ texts := by
  intro word hword
  rw [(Language.mem_one word).1 hword]
  exact fun l hl => absurd hl List.not_mem_nil

/-- A text behind a text is a text. -/
theorem mul_le_texts {L M : Language Label} (hL : L ≤ texts) (hM : M ≤ texts) :
    L * M ≤ texts := by
  intro word hword
  obtain ⟨x, hx, y, hy, rfl⟩ := Language.mem_mul.1 hword
  intro l hl
  rcases List.mem_append.1 hl with hl | hl
  · exact hL hx l hl
  · exact hM hy l hl

/-- If all words of two languages are texts, all words of either are. -/
theorem add_le_texts {L M : Language Label} (hL : L ≤ texts) (hM : M ≤ texts) :
    L + M ≤ texts := by
  intro word hword
  rcases (Language.mem_add L M word).1 hword with hword | hword
  · exact hL hword
  · exact hM hword

/-- Any number of texts in a row are a text. -/
theorem powers_le_texts (b : Bounds) {L : Language Label} (hL : L ≤ texts) :
    b.powers L ≤ texts := by
  have hpow : ∀ n : Nat, L ^ n ≤ texts := by
    intro n
    induction n with
    | zero => exact one_le_texts
    | succ n ih =>
      rw [pow_succ]
      exact mul_le_texts ih hL
  intro word hword
  obtain ⟨n, _, hn⟩ := Bounds.mem_powers.1 hword
  exact hpow n hn

mutual

/-- The words that a written tree describes are texts. By induction on the tree. -/
theorem language_le_texts (t : Tree) (h : t.Written) : t.language ≤ texts := by
  match t with
  | char l _ =>
    -- the parser writes one character at each leaf
    obtain ⟨c, rfl⟩ : ∃ c, l = .ofChar c := by simpa only [Written] using h
    intro word hword
    rw [Label.ofChar, language] at hword
    rw [show word = [Label.ofChar c] from hword]
    intro l hl
    exact ⟨c, List.mem_singleton.1 hl⟩
  | concat parts _ =>
    rw [language]
    exact languageOfSequence_le_texts parts (by simpa only [Written] using h)
  | group inner _ =>
    rw [language]
    exact language_le_texts inner (by simpa only [Written] using h)
  | either l r _ =>
    obtain ⟨hl, hr⟩ : l.Written ∧ r.Written := by simpa only [Written] using h
    rw [language]
    exact add_le_texts (language_le_texts l hl) (language_le_texts r hr)
  | anyOf options _ _ =>
    obtain ⟨_, hall⟩ : options ≠ [] ∧ AllWritten options := by simpa only [Written] using h
    rw [language]
    exact languageOfChoice_le_texts options hall
  | repeated b body _ _ =>
    rw [language]
    exact powers_le_texts b (language_le_texts body (by simpa only [Written] using h))

/-- The same for the words that some trees describe in sequence. -/
theorem languageOfSequence_le_texts (ts : List Tree) (h : AllWritten ts) :
    languageOfSequence ts ≤ texts := by
  match ts with
  | [] =>
    rw [languageOfSequence]
    exact one_le_texts
  | t :: ts =>
    obtain ⟨ht, hts⟩ : t.Written ∧ AllWritten ts := by simpa only [AllWritten] using h
    rw [languageOfSequence]
    exact mul_le_texts (language_le_texts t ht) (languageOfSequence_le_texts ts hts)

/-- The same for a choice between some trees. -/
theorem languageOfChoice_le_texts (ts : List Tree) (h : AllWritten ts) :
    languageOfChoice ts ≤ texts := by
  match ts with
  | [] =>
    rw [languageOfChoice]
    exact fun word hword => absurd hword (Language.notMem_zero word)
  | t :: ts =>
    obtain ⟨ht, hts⟩ : t.Written ∧ AllWritten ts := by simpa only [AllWritten] using h
    rw [languageOfChoice]
    exact add_le_texts (language_le_texts t ht) (languageOfChoice_le_texts ts hts)

end

end Tree

/-! ## Reading -/

/-- The grammar makes written trees. Every letter that it reads is a character, and it makes a
choice only where there is a bar, which has options on both sides. -/
theorem keeps_written (d : Dialect) : d.Keeps Tree.Written where
  char c _ := by
    rw [Tree.Written]
    exact ⟨c, rfl⟩
  concat h := by
    rwa [Tree.Written, Tree.allWritten_iff]
  group h := by
    rwa [Tree.Written]
  either hl hr := by
    rw [Tree.Written]
    exact ⟨hl, hr⟩
  anyOf hsome h := by
    rw [Tree.Written, Tree.allWritten_iff]
    exact ⟨hsome, h⟩
  repeated _ h := by
    rwa [Tree.Written]

/-- A pattern is read as a written tree. -/
theorem Parser.written_of_parse {d : Dialect} {s : String} {t : Tree} (h : parse d s = .ok t) :
    t.Written :=
  (derives_of_parse h).all (keeps_written d)

end PatternAutomata
