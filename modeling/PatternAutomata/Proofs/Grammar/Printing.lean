/-
What was read is written back.

A tree that the grammar derives from some characters is written as these characters
(`Derives.written_as`): parentheses stand in the tree where they stand in the pattern, a
quantifier keeps its spelling, and an option that is left empty is written as nothing. The
printer adds no parentheses of its own to such a tree, since neither a choice nor a row of parts
is ever a part itself.
-/
import PatternAutomata.Proofs.Grammar.Soundness
import PatternAutomata.Syntax.Printer

set_option autoImplicit false

namespace PatternAutomata

variable {d : Dialect}

namespace Tree

/-! ## Rows of parts -/

/-- Trees that need no parentheses are written one after the other. -/
theorem writeParts_append {ts us : List Tree} :
    writeParts (ts ++ us) = writeParts ts ++ writeParts us := by
  induction ts with
  | nil => rfl
  | cons t ts ih => rw [List.cons_append, writeParts, writeParts, ih, List.append_assoc]

/-- A single part that needs no parentheses is written as it is. -/
theorem writeParts_singleton {t : Tree} (h : t.needsGroup = false) :
    writeParts [t] = t.write := by
  rw [writeParts, writeParts, parenthesizedIf, h, List.append_nil]
  rfl

/-- An option is written as its parts one after the other. -/
theorem write_sequence {start stop : Nat} {ts : List Tree}
    (h : ∀ t ∈ ts, t.needsGroup = false) :
    (sequence start stop ts).write = writeParts ts := by
  rw [sequence.eq_def]
  split
  · next t => rw [writeParts_singleton (h t List.mem_cons_self)]
  · rw [write]

/-! ## Choices -/

/-- Options that are ended by a bar, written with their bars. -/
def writeEnded (ended : List (Tree × Nat)) : List Char :=
  ended.flatMap fun o => o.1.write ++ ['|']

/-- Options are written with a bar after each but the last. -/
theorem writeOptions_cons {t : Tree} {ts : List Tree} (h : ts ≠ []) :
    writeOptions (t :: ts) = t.write ++ '|' :: writeOptions ts := by
  rw [writeOptions]
  exact h

/-- So the last one is written behind the others and their bars. -/
theorem writeOptions_concat (ended : List (Tree × Nat)) (last : Tree) :
    writeOptions (ended.map (·.1) ++ [last]) = writeEnded ended ++ last.write := by
  induction ended with
  | nil => rw [List.map_nil, List.nil_append, writeOptions, writeEnded, List.flatMap_nil,
      List.nil_append]
  | cons o ended ih =>
    rw [List.map_cons, List.cons_append,
      writeOptions_cons (List.append_ne_nil_of_right_ne_nil _ (List.cons_ne_nil _ _)), ih]
    simp [writeEnded]

/-- A chain is written in the same way, with a bar for each link. -/
theorem write_foldr_either (ended : List (Tree × Nat)) (last : Tree) :
    (ended.foldr (fun o right => Tree.either o.1 right (some (o.2 : Int))) last).write =
      writeEnded ended ++ last.write := by
  induction ended with
  | nil => rfl
  | cons o ended ih =>
    rw [List.foldr_cons, write, ih]
    simp [writeEnded]

/-- Side by side or in a chain, options are written with bars between them. -/
theorem write_choice (start stop : Nat) (ended : List (Tree × Nat)) (last : Tree) :
    (choice d start stop ended last).write = writeEnded ended ++ last.write := by
  rw [choice]
  split
  · next h =>
    rw [h]
    rfl
  split
  · rw [write, writeOptions_concat]
  · exact write_foldr_either ended last

end Tree

/-! ## Phrases -/

/-- What is read of a phrase is written as some characters, and parts are written without
parentheses around them. -/
def Phrase.WrittenAs (cs : List Char) : Phrase → Prop
  | .part t => t.write = cs ∧ t.needsGroup = false
  | .parts ts => Tree.writeParts ts = cs ∧ ∀ t ∈ ts, t.needsGroup = false
  | .option t | .choice t => t.write = cs
  | .options ended last => Tree.writeEnded ended ++ last.write = cs

/-- What is read of a phrase is written as the phrase. By induction on the derivation. Parts need no
parentheses, which is shown along with it, since rows and repetitions would otherwise be written
with more parentheses than they were read with. -/
theorem Derives.writtenAs {i : Nat} {cs : List Char} {p : Phrase} (h : Derives d i cs p) :
    p.WrittenAs cs := by
  induction h with
  | @letter i c _ =>
    refine ⟨?_, rfl⟩
    rw [Tree.write, Label.ofChar]
    exact String.toList_singleton c
  | group _ ih =>
    refine ⟨?_, rfl⟩
    rw [Tree.write, show Tree.write _ = _ from ih]
  | quantified _ _ ih =>
    -- a part is written without parentheses under its quantifier
    obtain ⟨hbody, hplain⟩ := ih
    refine ⟨?_, rfl⟩
    rw [Tree.write, hbody, hplain, Tree.parenthesizedIf, String.toList_ofList]
    rfl
  | none => exact ⟨rfl, fun t ht => absurd ht List.not_mem_nil⟩
  | more _ _ ih ih' =>
    obtain ⟨hrow, hplain⟩ := ih
    obtain ⟨hpart, hplain'⟩ := ih'
    refine ⟨?_, ?_⟩
    · rw [Tree.writeParts_append, hrow, Tree.writeParts_singleton hplain', hpart]
    · intro t ht
      rcases List.mem_append.1 ht with ht | ht
      · exact hplain t ht
      · rwa [List.mem_singleton.1 ht]
  | option _ _ ih =>
    obtain ⟨hrow, hplain⟩ := ih
    exact (Tree.write_sequence hplain).trans hrow
  | first _ ih => exact ih
  | @next i cs cs' ended t u _ _ ih ih' =>
    simp only [Phrase.WrittenAs] at ih ih' ⊢
    rw [← ih, ← ih']
    simp [Tree.writeEnded]
  | choice _ ih => exact (Tree.write_choice _ _ _ _).trans ih

/-! ## Whole patterns -/

namespace Parser

/-- Whatever is allowed in patterns, one that is read is written back as it was. By soundness the
pattern is a phrase, and its tree is written as that. -/
theorem toText_of_parse {s : String} {t : Tree} (h : parse d s = .ok t) : t.toText = s := by
  have hwritten : t.write = s.toList := (derives_of_parse h).writtenAs
  rw [Tree.toText, hwritten, String.ofList_toList]

/-- Parentheses, an empty option and the spelling of a range are kept. -/
theorem toText_of_parse_range :
    ∃ t, parse { boundedRepetition := true } "(a|)b\x7b02,\x7d" = .ok t ∧
      t.toText = "(a|)b\x7b02,\x7d" := by
  have h : ∃ t, parse { boundedRepetition := true } "(a|)b\x7b02,\x7d" = .ok t :=
    ⟨_, by with_unfolding_all rfl⟩
  obtain ⟨t, ht⟩ := h
  exact ⟨t, ht, toText_of_parse ht⟩

end Parser

end PatternAutomata
