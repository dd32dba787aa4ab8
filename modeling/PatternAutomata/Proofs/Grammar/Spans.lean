/-
Where the nodes of a tree stand in the text.

A tree that was read from a text says of each of its nodes where it stands. What stands there is
what the node is written as; of a repetition it is the spelling of its range, which begins where the
repeated part ends, and of a binary choice it is a bar (`Tree.Mapped`). The letters, the two ends of
the groups, the ranges and the bars between them take up every place of the text, and none of them
twice (`Tree.places`).

The grammar says of each phrase where it starts, so both are shown along a derivation: what is read
of a phrase stands where the phrase stands (`Derives.mapped`) and takes up the places of the phrase
(`Derives.perm_places`).
-/
import PatternAutomata.Proofs.Grammar.DepthLimit
import PatternAutomata.Proofs.Grammar.Printing

set_option autoImplicit false

namespace PatternAutomata

variable {d : Dialect}

/-! ## Places -/

/-- The places between two known ends. -/
def Span.places : Span → List Int
  | ⟨some i, some j⟩ => (List.range (j - i).toNat).map fun (k : Nat) => i + k
  | _ => []

namespace Tree

mutual

/-- The places of a text that the nodes of a tree take up: the place of a letter, both ends of a
group, the places of the range of a repetition, and the places of the bars of a choice. -/
def places : Tree → List Int
  | char _ place => place.toList
  | concat parts _ => placesOfAll parts
  | group inner s => s.start.toList ++ places inner ++ (s.stop.map (· - 1)).toList
  | either l r pipe => places l ++ pipe.toList ++ places r
  | anyOf options pipes _ => pipes.filterMap id ++ placesOfAll options
  | repeated _ body _ s => places body ++ s.places

/-- The places that the nodes of some trees take up. -/
def placesOfAll : List Tree → List Int
  | [] => []
  | t :: ts => places t ++ placesOfAll ts

end

end Tree

/-- So many places from a given one on. -/
def block (i n : Nat) : List Int := (List.range' i n).map Nat.cast

/-- Two blocks of places, one behind the other, are one block. -/
theorem block_append (i m n : Nat) : block i m ++ block (i + m) n = block i (m + n) := by
  rw [block, block, block, ← List.map_append, List.range'_append_1]

/-- One place is a block by itself. -/
theorem block_one (i : Nat) : block i 1 = [(i : Int)] := rfl

/-- A span between two places takes up the block between them. -/
theorem Span.places_between (i n : Nat) : (Span.between i (i + n)).places = block i n := by
  have hlength : ((i + n : Nat) - (i : Int)).toNat = n := by omega
  rw [between, places, hlength, block, List.range'_eq_map_range, List.map_map]
  exact List.map_congr_left fun k _ => (Int.natCast_add i k).symm

namespace Tree

/-- The places of two rows of trees are put together. -/
theorem placesOfAll_append (ts us : List Tree) :
    placesOfAll (ts ++ us) = placesOfAll ts ++ placesOfAll us := by
  induction ts with
  | nil => rfl
  | cons t ts ih => rw [List.cons_append, placesOfAll, placesOfAll, ih, List.append_assoc]

/-- One tree takes up its own places. -/
theorem placesOfAll_singleton (t : Tree) : placesOfAll [t] = t.places := by
  rw [placesOfAll, placesOfAll, List.append_nil]

/-- An option takes up the places of its parts. -/
theorem places_sequence (start stop : Nat) (ts : List Tree) :
    (sequence start stop ts).places = placesOfAll ts := by
  rw [sequence.eq_def]
  split
  · rw [placesOfAll_singleton]
  · rw [places]

/-- The places of options that are ended by a bar, with those of their bars. -/
def placesOfEnded (ended : List (Tree × Nat)) : List Int :=
  ended.flatMap fun o => o.1.places ++ [(o.2 : Int)]

/-- The first option comes first, and its bar after it. -/
theorem placesOfEnded_cons (o : Tree × Nat) (ended : List (Tree × Nat)) :
    placesOfEnded (o :: ended) = o.1.places ++ (o.2 : Int) :: placesOfEnded ended := by
  rw [placesOfEnded, List.flatMap_cons, List.append_assoc]
  rfl

/-- Options side by side take up the places of their bars and their own. The bars are listed first,
so only the order differs. -/
theorem perm_places_anyOf (ended : List (Tree × Nat)) (last : Tree) :
    ((ended.map fun o => (o.2 : Int)) ++ placesOfAll (ended.map (·.1) ++ [last])).Perm
      (placesOfEnded ended ++ last.places) := by
  induction ended with
  | nil =>
    rw [List.map_nil, List.map_nil, List.nil_append, List.nil_append, placesOfAll_singleton]
    rfl
  | cons o ended ih =>
    rw [List.map_cons, List.map_cons, List.cons_append, List.cons_append, placesOfAll,
      placesOfEnded_cons, List.append_assoc, List.cons_append]
    -- the bar is moved behind the option that it ends, the other bars in front of it
    refine .trans ?_ List.perm_middle.symm
    refine .cons _ (.trans ?_ (ih.append_left o.1.places))
    rw [← List.append_assoc, ← List.append_assoc]
    exact List.perm_append_comm.append_right _

/-- Options in a chain take up their places and those of their bars in between. -/
theorem places_foldr_either (ended : List (Tree × Nat)) (last : Tree) :
    (ended.foldr (fun o right => Tree.either o.1 right (some (o.2 : Int))) last).places =
      placesOfEnded ended ++ last.places := by
  induction ended with
  | nil => rfl
  | cons o ended ih =>
    rw [List.foldr_cons, places, ih, placesOfEnded_cons, List.append_assoc, List.append_assoc]
    rfl

/-- In whichever way a choice is put together, it takes up the places of its options and bars. -/
theorem perm_places_choice (start stop : Nat) (ended : List (Tree × Nat)) (last : Tree) :
    (choice d start stop ended last).places.Perm (placesOfEnded ended ++ last.places) := by
  rw [choice]
  split
  · next h =>
    rw [h]
    rfl
  split
  · have hbars : (ended.map fun o => some (o.2 : Int)).filterMap id =
        ended.map fun o => (o.2 : Int) := by
      rw [List.filterMap_map]
      exact congrFun List.filterMap_eq_map ended
    rw [places, hbars]
    exact perm_places_anyOf ended last
  · rw [places_foldr_either]

end Tree

/-- The places that all that is read of a phrase takes up. -/
def Phrase.places : Phrase → List Int
  | .part t | .option t | .choice t => t.places
  | .parts ts => Tree.placesOfAll ts
  | .options ended last => Tree.placesOfEnded ended ++ last.places

/-- What is read of a phrase takes up every place of the phrase, and none twice. By induction on the
derivation, as the places of the phrases inside it lie one behind the other. -/
theorem Derives.perm_places {i : Nat} {cs : List Char} {p : Phrase} (h : Derives d i cs p) :
    p.places.Perm (block i cs.length) := by
  induction h with
  | letter => exact .refl _
  | @group i cs t _ ih =>
    have hstart : block i 1 = [(i : Int)] := rfl
    have hstop : block (i + 1 + cs.length) 1 = [((i + cs.length + 2 : Nat) : Int) - 1] := by
      rw [block_one]
      exact congrArg (fun k => [k]) (by omega)
    -- a parenthesis on either side of the inner phrase
    have hlength : ('(' :: cs ++ [')']).length = 1 + cs.length + 1 := by
      simp only [List.length_append, List.length_cons, List.length_nil]
      omega
    rw [hlength, ← block_append, ← block_append, ← Nat.add_assoc, hstart, hstop, Phrase.places,
      Tree.places]
    exact (ih.append_left _).append_right _
  | @quantified i cs q t b _ _ ih =>
    rw [Phrase.places, Tree.places, Span.places_between, List.length_append, ← block_append]
    exact ih.append_right _
  | none => exact .refl _
  | more _ _ ih ih' =>
    rw [Phrase.places, Tree.placesOfAll_append, Tree.placesOfAll_singleton, List.length_append,
      ← block_append]
    exact ih.append ih'
  | option _ _ ih =>
    rw [Phrase.places, Tree.places_sequence]
    exact ih
  | first _ ih => exact ih
  | @next i cs cs' ended t u _ _ ih ih' =>
    have hlength : (cs ++ '|' :: cs').length = cs.length + 1 + cs'.length := by
      simp only [List.length_append, List.length_cons]
      omega
    rw [hlength, ← block_append, ← block_append, block_one, ← Nat.add_assoc, Phrase.places,
      Tree.placesOfEnded, List.flatMap_append, List.flatMap_singleton, ← List.append_assoc]
    exact (ih.append_right _).append ih'
  | choice _ ih => exact (Tree.perm_places_choice _ _ _ _).trans ih

/-! ## What stands where -/

section Standing

variable {text cs cs' : List Char} {i : Nat} {c : Char}

/-- Some characters stand in a text from a place on. -/
def StandsAt (text : List Char) (i : Nat) (cs : List Char) : Prop :=
  ∃ before after, text = before ++ cs ++ after ∧ before.length = i

/-- The first part stands where all of it does. -/
theorem StandsAt.left (h : StandsAt text i (cs ++ cs')) : StandsAt text i cs := by
  obtain ⟨before, after, rfl, hi⟩ := h
  refine ⟨before, cs' ++ after, ?_, hi⟩
  simp only [List.append_assoc]

/-- The second part stands behind the first. -/
theorem StandsAt.right (h : StandsAt text i (cs ++ cs')) : StandsAt text (i + cs.length) cs' := by
  obtain ⟨before, after, rfl, rfl⟩ := h
  refine ⟨before ++ cs, after, ?_, List.length_append⟩
  simp only [List.append_assoc]

/-- All but the first character stands one place further on. -/
theorem StandsAt.tail (h : StandsAt text i (c :: cs)) : StandsAt text (i + 1) cs := by
  have happend : StandsAt text i ([c] ++ cs) := h
  exact happend.right

/-- The first character stands at the place itself. -/
theorem StandsAt.getElem? (h : StandsAt text i (c :: cs)) : text[i]? = some c := by
  obtain ⟨before, after, rfl, rfl⟩ := h
  rw [List.append_assoc, List.getElem?_append_right (Nat.le_refl _), Nat.sub_self]
  rfl

/-- A span is part of a text, and some characters stand there. -/
def Span.Holds (text : List Char) (s : Span) (cs : List Char) : Prop :=
  ∃ i j : Nat, s = .between i j ∧ i ≤ j ∧ j ≤ text.length ∧ text.extract i j = cs

/-- The span from the place on to the end of the characters holds them. -/
theorem StandsAt.holds (h : StandsAt text i cs) :
    (Span.between i (i + cs.length)).Holds text cs := by
  obtain ⟨before, after, rfl, rfl⟩ := h
  refine ⟨_, _, rfl, Nat.le_add_right .., ?_, ?_⟩
  · simp only [List.length_append]
    omega
  · rw [List.extract_eq_take_drop, List.append_assoc, List.drop_left, Nat.add_sub_cancel_left,
      List.take_left]

/-- There is a bar at a place of a text. -/
def IsBar (text : List Char) (place : Option Int) : Prop :=
  ∃ i : Nat, place = some (i : Int) ∧ text[i]? = some '|'

end Standing

namespace Tree

variable {text : List Char}

/-- Where a node says it stands, there stands what it is written as. A repetition says where its
range stands, which is right after what is repeated, and a choice where its bars stand. -/
def Mapped (text : List Char) : Tree → Prop
  | char label place => (char label place).span.Holds text (char label place).write
  | concat parts s => s.Holds text (concat parts s).write
  | group inner s => s.Holds text (group inner s).write
  | either _ _ pipe => IsBar text pipe
  | anyOf options pipes s =>
    s.Holds text (anyOf options pipes s).write ∧ ∀ pipe ∈ pipes, IsBar text pipe
  | repeated _ body spelling s => s.Holds text spelling.toList ∧ s.start = body.span.stop

/-- All nodes of a tree stand where they say. -/
def AllMapped (text : List Char) (t : Tree) : Prop := ∀ u, t.HasNode u → u.Mapped text

/-- All nodes of a tree stand where they say if the tree does and all nodes of its children do. -/
theorem allMapped_iff {t : Tree} :
    t.AllMapped text ↔ t.Mapped text ∧ ∀ c ∈ t.children, c.AllMapped text :=
  forall_hasNode_iff

/-- An option stands where it says if its parts do and it is written as they are. -/
theorem allMapped_sequence {start stop : Nat} {ts : List Tree} (hts : ∀ t ∈ ts, t.AllMapped text)
    (hself : (Span.between start stop).Holds text (writeParts ts)) :
    (sequence start stop ts).AllMapped text := by
  rw [sequence.eq_def]
  split
  · exact hts _ List.mem_cons_self
  · refine allMapped_iff.2 ⟨?_, hts⟩
    rw [Mapped, write]
    exact hself

/-- A choice stands where it says if its options and bars do, in whichever way it is put
together. -/
theorem allMapped_choice {start stop : Nat} {ended : List (Tree × Nat)} {last : Tree}
    (hended : ∀ o ∈ ended, o.1.AllMapped text ∧ text[o.2]? = some '|') (hlast : last.AllMapped text)
    (hself : (Span.between start stop).Holds text (writeEnded ended ++ last.write)) :
    (choice d start stop ended last).AllMapped text := by
  rw [choice]
  split
  · exact hlast
  split
  · refine allMapped_iff.2 ⟨?_, ?_⟩
    · rw [Mapped, write, writeOptions_concat]
      refine ⟨hself, List.forall_mem_map.2 ?_⟩
      exact fun o ho => ⟨o.2, rfl, (hended o ho).2⟩
    · rw [children, List.forall_mem_append, List.forall_mem_map, List.forall_mem_singleton]
      exact ⟨fun o ho => (hended o ho).1, hlast⟩
  · clear * - hended hlast
    induction ended with
    | nil => exact hlast
    | cons o ended ih =>
      rw [List.forall_mem_cons] at hended
      rw [List.foldr_cons, allMapped_iff, children, List.forall_mem_cons, List.forall_mem_singleton]
      exact ⟨⟨o.2, rfl, hended.1.2⟩, hended.1.1, ih hended.2⟩

end Tree

/-- All that is read of a phrase stands where it says. -/
def Phrase.AllMapped (text : List Char) : Phrase → Prop
  | .part t | .option t | .choice t => t.AllMapped text
  | .parts ts => ∀ t ∈ ts, t.AllMapped text
  | .options ended last =>
    (∀ o ∈ ended, o.1.AllMapped text ∧ text[o.2]? = some '|') ∧ last.AllMapped text

namespace Derives

variable {i : Nat} {cs text : List Char} {p : Phrase}

/-- A part says that it ends where it does. A repetition needs this of its body, as its range begins
where the body ends. -/
theorem stop_of_part {t : Tree} (h : Derives d i cs (.part t)) :
    t.span.stop = some ((i + cs.length : Nat) : Int) := by
  cases h with
  | letter => rfl
  | group =>
    rw [Tree.span, Span.between, List.length_append, List.length_cons, List.length_singleton]
    rfl
  | quantified =>
    rw [Tree.span, Span.between, List.length_append, Nat.add_assoc]

/-- If the phrase stands in a text, all that is read of it stands in the text where it says. By
induction on the derivation; what each node is written as is known from `Derives.writtenAs`. -/
theorem allMapped (h : Derives d i cs p) (hat : StandsAt text i cs) : p.AllMapped text := by
  induction h with
  | @letter i c literal =>
    refine Tree.allMapped_iff.2 ⟨?_, fun t ht => absurd ht List.not_mem_nil⟩
    rw [Tree.Mapped, (letter (d := d) (i := i) literal).writtenAs.1]
    exact hat.holds
  | @group i cs t inner ih =>
    -- the inner phrase stands right behind the opening parenthesis
    have hinner : StandsAt text (i + 1) cs := hat.left.tail
    refine Tree.allMapped_iff.2 ⟨?_, List.forall_mem_singleton.2 (ih hinner)⟩
    rw [Tree.Mapped, inner.group.writtenAs.1]
    have hholds := hat.holds
    rw [List.length_append, List.length_cons, List.length_singleton] at hholds
    exact hholds
  | @quantified i cs q t b body quantifier ih =>
    refine Tree.allMapped_iff.2 ⟨?_, List.forall_mem_singleton.2 (ih hat.left)⟩
    rw [Tree.Mapped, String.toList_ofList]
    exact ⟨hat.right.holds, body.stop_of_part.symm⟩
  | none => exact fun t ht => absurd ht List.not_mem_nil
  | more _ _ ih ih' =>
    rw [Phrase.AllMapped, List.forall_mem_append, List.forall_mem_singleton]
    exact ⟨ih hat.left, ih' hat.right⟩
  | option row _ ih =>
    refine Tree.allMapped_sequence (ih hat) ?_
    rw [row.writtenAs.1]
    exact hat.holds
  | first _ ih => exact ⟨fun o ho => absurd ho List.not_mem_nil, ih hat⟩
  | @next i cs cs' ended t u _ _ ih ih' =>
    -- the bar stands where the options before it end
    have hbar := hat.right
    obtain ⟨hended, hlast⟩ := ih hat.left
    refine ⟨?_, ih' hbar.tail⟩
    rw [List.forall_mem_append, List.forall_mem_singleton]
    exact ⟨hended, hlast, hbar.getElem?⟩
  | choice options ih =>
    refine Tree.allMapped_choice (ih hat).1 (ih hat).2 ?_
    rw [show Tree.writeEnded _ ++ _ = _ from options.writtenAs]
    exact hat.holds

end Derives

/-! ## Whole patterns -/

namespace Parser

/-- Every node of a tree that is read says where in the text it stands, and the letters, the ends of
groups, the ranges of repetitions and the bars take up each place of the text once. -/
theorem mapped_of_parse {s : String} {t : Tree} (h : parse d s = .ok t) :
    (∀ u, t.HasNode u → u.Mapped s.toList) ∧
      t.places.Perm ((List.range s.length).map Nat.cast) := by
  have hderives := derives_of_parse h
  refine ⟨hderives.allMapped ⟨[], [], (List.append_nil _).symm, rfl⟩, ?_⟩
  have hplaces := hderives.perm_places
  rwa [block, String.length_toList, ← List.range_eq_range'] at hplaces

/-- An empty option, a group in a group and two ranges one after the other keep their places. -/
theorem mapped_of_parse_nested :
    ∃ t, parse { boundedRepetition := true } "((a|)b)\x7b2,\x7d?|c" = .ok t ∧
      (∀ u, t.HasNode u → u.Mapped "((a|)b)\x7b2,\x7d?|c".toList) ∧
        t.places.Perm ((List.range 14).map Nat.cast) := by
  have h : ∃ t, parse { boundedRepetition := true } "((a|)b)\x7b2,\x7d?|c" = .ok t :=
    ⟨_, by with_unfolding_all rfl⟩
  obtain ⟨t, ht⟩ := h
  obtain ⟨hnodes, hplaces⟩ := mapped_of_parse ht
  exact ⟨t, ht, hnodes, hplaces⟩

end Parser

end PatternAutomata
