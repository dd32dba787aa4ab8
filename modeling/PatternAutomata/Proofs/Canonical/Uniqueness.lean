/-
The one smallest automaton for a language.

A deterministic automaton is canonical if each of its states leads to acceptance, different
states accept different words, and the states are numbered by the earliest words that reach
them. What may follow a word decides which state it leads to, so a language fixes which words
lead to one state (`Canonical.meet_iff`), and with that the words by which the states are
numbered and the edges. Hence a language and an alphabet have one canonical automaton only, as
far as can be seen from its drawing (`Canonical.drawing_eq`), and no deterministic automaton for
the language has fewer states (`Canonical.length_le_card`).
-/
import Mathlib.Data.Fintype.Card
import PatternAutomata.Proofs.Canonical.Minimizing
import PatternAutomata.Proofs.Canonical.Rows

set_option autoImplicit false

namespace PatternAutomata

open PatternAutomata.Graph

namespace Automaton

/-- A numbered deterministic automaton of which each state is needed. -/
structure Canonical (g : Graph) (a : Automaton) (first : Nat) (words : List (List Label)) :
    Prop where
  sound : a.Sound g
  deterministic : g.Deterministic a.states
  numbered : a.Numbered g first words
  alive : ∀ v ∈ a.states, ∃ word, word ∈ g.languageFrom v
  reduced : ∀ v ∈ a.states, ∀ w ∈ a.states, g.languageFrom v = g.languageFrom w → v = w
  isTrap_eq : ∀ v ∈ a.states, (g.node v).isTrap = false

end Automaton

/-! ## Minimizing makes it -/

/-- If each state leads to acceptance, states that accept the same words can take the same steps. A
symbol that leads on from one of them stands in a word that it accepts, so it leads on from the
other one, and what may follow is the same. -/
theorem Partition.bisimulation_languageFrom {g : Graph} {a : Automaton} (ha : a.Sound g)
    (hd : g.Deterministic a.states)
    (halive : ∀ v ∈ a.states, ∃ word, word ∈ g.languageFrom v) :
    Bisimulation g a.states fun v w =>
      v ∈ a.states ∧ w ∈ a.states ∧ g.languageFrom v = g.languageFrom w where
  symm v w h := ⟨h.2.1, h.1, h.2.2.symm⟩
  step v hv w hw hvw l u hu := by
    have hl := hd.ne_epsilon hv hu
    -- the step can be completed to an accepted word, which the other state accepts too
    obtain ⟨word, hword⟩ := halive u (ha.target_mem hv hu)
    have hpath : Path g v [l] u := .step hl hu
    have hmem := append_mem_languageFrom hpath hword
    rw [hvw.2.2] at hmem
    obtain ⟨x, hx, _⟩ := hmem
    obtain ⟨y, hy, _⟩ := hx.split
    have hy' : Path g w ([] ++ [l]) y := hy
    obtain ⟨z, hz, _, hyz⟩ := (ha.path_append_iff hd hw).1 hy'
    obtain rfl := hd.path_nil hw hz
    refine ⟨y, hyz, ha.target_mem hv hu, ha.target_mem hw hyz, ?_⟩
    rw [ha.languageFrom_eq hd hv hpath, ha.languageFrom_eq hd hw hy, hvw.2.2]
  target_mem _ hv _ _ hu := ha.target_mem hv hu

/-- Minimizing a numbered automaton in which each state leads to acceptance makes a canonical one.
Blocks that accept the same words would have members that do, and these were never told apart. -/
theorem MadeOfBlocks.canonical {m : Machine} {h : Graph} {d : Automaton} {first : Nat}
    {words : List (List Label)}
    (hmade : MadeOfBlocks m.graph m.automaton (Machine.blocksInOrder m.graph m.refined) h d)
    (hm : m.automaton.Sound m.graph) (hd : m.graph.Deterministic m.automaton.states)
    (hn : m.automaton.Numbered m.graph first words)
    (halive : ∀ v ∈ m.automaton.states, ∃ word, word ∈ m.graph.languageFrom v)
    (htrap : ∀ v ∈ m.automaton.states, (m.graph.node v).isTrap = false) :
    d.Canonical h m.graph.size
      (leastWords m.graph words (Machine.blocksInOrder m.graph m.refined)) where
  sound := hmade.sound
  deterministic := hmade.deterministic
  numbered := hmade.numbered hm hn
  alive := hmade.alive hm.labelled halive
  reduced v hv w hw heq := by
    obtain ⟨i, hi, rfl⟩ := hmade.exists_number hv
    obtain ⟨j, hj, rfl⟩ := hmade.exists_number hw
    obtain ⟨x, hx⟩ := hmade.blocking.inhabited _ (List.getElem_mem hi)
    obtain ⟨y, hy⟩ := hmade.blocking.inhabited _ (List.getElem_mem hj)
    rw [hmade.languageFrom_eq hm.labelled hi hx, hmade.languageFrom_eq hm.labelled hj hy] at heq
    have hx_mem := hmade.mem_states_old hi hx
    have hy_mem := hmade.mem_states_old hj hy
    have hsame : y ∈ (Machine.blocksInOrder m.graph m.refined)[i] := by
      -- states with one language were never told apart, so they share a block
      refine Machine.mem_block_of_related hd (Partition.bisimulation_languageFrom hm hd halive)
        ?_ (List.getElem_mem hi) hx hy_mem ⟨hx_mem, hy_mem, heq⟩
      rintro v w ⟨hv, hw, hvw⟩
      rw [Bool.eq_iff_iff, ← hd.nil_mem_iff hv, ← hd.nil_mem_iff hw, hvw]
    obtain rfl := hmade.blocking.unique i hi j hj y hsame hy
    rfl
  isTrap_eq v hv := by
    obtain ⟨i, hi, rfl⟩ := hmade.exists_number hv
    rw [Bool.eq_false_iff, ne_eq, hmade.isTrap_iff i hi]
    rintro ⟨w, hw, htrue⟩
    rw [htrap w (hmade.mem_states_old hi hw)] at htrue
    nomatch htrue

namespace Automaton.Canonical

variable {g h : Graph} {a b : Automaton} {first first' : Nat} {words words' : List (List Label)}

/-! ## What may follow a word -/

/-- The first state is the start state. -/
theorem start_mem (ha : a.Canonical g first words) : first ∈ a.states := by
  rw [← ha.numbered.start_eq]
  exact ha.sound.start_mem

/-- The language is what the first state accepts. -/
theorem language_eq (ha : a.Canonical g first words) : a.language g = g.languageFrom first := by
  rw [Automaton.language, ha.numbered.start_eq]

/-- What may follow a word is what is accepted from the state that it leads to. -/
theorem leftQuotient_eq (ha : a.Canonical g first words) {v : Vertex} {word : List Label}
    (hpath : Path g first word v) : (a.language g).leftQuotient word = g.languageFrom v := by
  rw [ha.language_eq]
  exact (ha.sound.languageFrom_eq ha.deterministic ha.start_mem hpath).symm

/-- A word that may be followed by something leads to a state, on the way to acceptance. -/
theorem exists_path (ha : a.Canonical g first words) {word rest : List Label}
    (hrest : rest ∈ (a.language g).leftQuotient word) :
    ∃ i, i < words.length ∧ Path g first word (first + i) := by
  rw [Language.mem_leftQuotient, ha.language_eq] at hrest
  obtain ⟨u, hu, _⟩ := hrest
  obtain ⟨v, hv, _⟩ := hu.split
  obtain ⟨i, hi, rfl⟩ := ha.numbered.exists_number (ha.sound.path_mem hv ha.start_mem)
  exact ⟨i, hi, hv⟩

/-- What may follow the word of a state is what is accepted from it. -/
theorem leftQuotient_word (ha : a.Canonical g first words) {i : Nat} (hi : i < words.length) :
    (a.language g).leftQuotient words[i] = g.languageFrom (first + i) :=
  ha.leftQuotient_eq (ha.numbered.path i hi)

/-- Each state leads to acceptance, so its word may be followed by something. -/
theorem exists_rest (ha : a.Canonical g first words) {i : Nat} (hi : i < words.length) :
    ∃ rest, rest ∈ (a.language g).leftQuotient words[i] := by
  rw [ha.leftQuotient_word hi]
  exact ha.alive _ (ha.numbered.mem_number hi)

/-- Words lead to one state if the same may follow them, and anything at all. This is where it is
used that different states accept different words. -/
theorem meet_iff (ha : a.Canonical g first words) {x y : List Label} : g.Meet first x y ↔
    (∃ rest, rest ∈ (a.language g).leftQuotient x) ∧
      (a.language g).leftQuotient x = (a.language g).leftQuotient y := by
  constructor
  · rintro ⟨w, hx, hy⟩
    rw [ha.leftQuotient_eq hx, ha.leftQuotient_eq hy]
    exact ⟨ha.alive w (ha.sound.path_mem hx ha.start_mem), rfl⟩
  · rintro ⟨⟨rest, hrest⟩, heq⟩
    obtain ⟨i, hi, hx⟩ := ha.exists_path hrest
    obtain ⟨j, hj, hy⟩ := ha.exists_path (heq ▸ hrest)
    rw [ha.leftQuotient_eq hx, ha.leftQuotient_eq hy] at heq
    -- no two states accept the same
    rw [← ha.reduced _ (ha.numbered.mem_number hi) _ (ha.numbered.mem_number hj) heq] at hy
    exact ⟨_, hx, hy⟩

/-- A state accepts if its word is accepted. -/
theorem isAccepting_iff (ha : a.Canonical g first words) {i : Nat} (hi : i < words.length) :
    (g.node (first + i)).isAccepting = true ↔ words[i] ∈ a.language g := by
  rw [← ha.deterministic.nil_mem_iff (ha.numbered.mem_number hi), ← ha.leftQuotient_word hi,
    Language.mem_leftQuotient, List.append_nil]

/-! ## What the language fixes -/

section Alike

variable (ha : a.Canonical g first words) (hb : b.Canonical h first' words')
  (hlanguage : a.language g = b.language h)
include ha hb hlanguage

/-- So the language decides which words meet. -/
theorem meet_iff_meet {x y : List Label} : g.Meet first x y ↔ h.Meet first' x y := by
  rw [ha.meet_iff, hb.meet_iff, hlanguage]

/-- The words of the states are fixed by the language. -/
theorem words_eq : words = words' :=
  ha.numbered.words_eq ha.sound ha.deterministic hb.numbered hb.sound hb.deterministic
    fun _ _ => ha.meet_iff_meet hb hlanguage

/-- Canonical automata for one language and alphabet are drawn alike. -/
theorem drawing_eq (halphabet : a.alphabet = b.alphabet) : a.drawing g = b.drawing h := by
  obtain rfl := ha.words_eq hb hlanguage
  apply ha.numbered.drawing_eq ha.sound ha.deterministic hb.numbered hb.sound hb.deterministic
    (fun _ _ => ha.meet_iff_meet hb hlanguage)
  · intro i hi
    rw [Bool.eq_iff_iff, ha.isAccepting_iff hi, hb.isAccepting_iff hi, hlanguage]
  · intro i hi
    rw [ha.isTrap_eq _ (ha.numbered.mem_number hi), hb.isTrap_eq _ (hb.numbered.mem_number hi)]
  · exact halphabet

end Alike

/-- There are as many states as words. -/
theorem size_eq (ha : a.Canonical g first words) : a.states.size = words.length :=
  size_row ha.numbered.mem_states

end Automaton.Canonical

/-! ## Nothing smaller -/

/-- A deterministic automaton over characters, of whatever kind its states are: there is at most
one start state, and at most one way on from a state for each character. -/
structure Rival (σ : Type) where
  start : Option σ
  step : σ → Char → Option σ
  accepting : σ → Bool

namespace Rival

variable {σ : Type} (r : Rival σ)

/-- Where some characters lead. -/
def run (cs : List Char) : Option σ := cs.foldl (fun q c => q.bind fun q => r.step q c) r.start

/-- Whether a text leads to acceptance. -/
def accepts (s : String) : Bool := (r.run s.toList).any r.accepting

variable {r}

/-- What follows depends on where the characters before it led only. -/
theorem run_append_congr {cs ds : List Char} (h : r.run cs = r.run ds) (es : List Char) :
    r.run (cs ++ es) = r.run (ds ++ es) := by
  rw [run, run, List.foldl_append, List.foldl_append, ← run, ← run, h]

/-- What leads nowhere leads nowhere with more characters. -/
theorem run_append_eq_none {cs : List Char} (h : r.run cs = none) (es : List Char) :
    r.run (cs ++ es) = none := by
  rw [run, List.foldl_append, ← run, h]
  induction es with
  | nil => rfl
  | cons c es ih => exact ih

end Rival

namespace Automaton.Canonical

variable {g : Graph} {a : Automaton} {first : Nat} {words : List (List Label)}

/-- The word of a state is spelled with characters if all accepted words are, since some accepted
word begins with it. -/
theorem exists_chars (ha : a.Canonical g first words)
    (htext : ∀ word ∈ a.language g, ∃ s, word = Label.ofText s) {i : Nat}
    (hi : i < words.length) : ∃ cs es : List Char, words[i] = cs.map Label.ofChar ∧
      Label.ofText (String.ofList (cs ++ es)) ∈ a.language g := by
  obtain ⟨rest, hrest⟩ := ha.exists_rest hi
  rw [Language.mem_leftQuotient] at hrest
  obtain ⟨s, hs⟩ := htext _ hrest
  obtain ⟨cs, es, hsplit, hcs, hes⟩ := List.map_eq_append_iff.1 hs.symm
  refine ⟨cs, es, hcs.symm, ?_⟩
  rwa [Label.ofText, String.toList_ofList, List.map_append, hcs, hes]

/-- No deterministic automaton that accepts the same texts has fewer states. Each state is reached
by characters; where these lead the other automaton tells which state it is, because states that the
other automaton does not tell apart may be followed by the same and so are equal. -/
theorem length_le_card (ha : a.Canonical g first words)
    (htext : ∀ word ∈ a.language g, ∃ s, word = Label.ofText s) {σ : Type} [Fintype σ]
    {r : Rival σ} (hr : ∀ s, r.accepts s = true ↔ Label.ofText s ∈ a.language g) :
    words.length ≤ Fintype.card σ := by
  have hchars : ∀ i : Fin words.length, ∃ q, ∃ cs : List Char,
      words[i] = cs.map Label.ofChar ∧ r.run cs = some q := by
    rintro ⟨i, hi⟩
    obtain ⟨cs, es, hcs, hmem⟩ := ha.exists_chars htext hi
    rw [← hr, Rival.accepts, String.toList_ofList] at hmem
    have hne : r.run cs ≠ none := by
      intro hnone
      rw [Rival.run_append_eq_none hnone] at hmem
      nomatch hmem
    obtain ⟨q, hq⟩ := Option.ne_none_iff_exists'.1 hne
    exact ⟨q, cs, hcs, hq⟩
  choose state chars hword hrun using hchars
  -- words that lead the other automaton to one state may be followed by the same
  have hsub : ∀ i j, state i = state j →
      (a.language g).leftQuotient words[i] ≤ (a.language g).leftQuotient words[j] := by
    intro i j heq rest hrest
    show words[j] ++ rest ∈ a.language g
    replace hrest : words[i] ++ rest ∈ a.language g := hrest
    rw [hword] at hrest ⊢
    obtain ⟨s, hs⟩ := htext _ hrest
    obtain ⟨_, es, _, _, rfl⟩ := List.map_eq_append_iff.1 hs.symm
    have hsame := Rival.run_append_congr ((hrun i).trans (heq ▸ (hrun j).symm)) es
    have hspell : ∀ cs : List Char, cs.map Label.ofChar ++ es.map Label.ofChar =
        Label.ofText (String.ofList (cs ++ es)) := by
      intro cs
      rw [Label.ofText, String.toList_ofList, List.map_append]
    rw [hspell, ← hr, Rival.accepts, String.toList_ofList] at hrest ⊢
    rwa [← hsame]
  have hinjective : Function.Injective state := by
    intro i j heq
    have hsame := le_antisymm (hsub i j heq) (hsub j i heq.symm)
    have hi := ha.leftQuotient_word i.isLt
    have hj := ha.leftQuotient_word j.isLt
    have hlanguages : g.languageFrom (first + i) = g.languageFrom (first + j) :=
      hi.symm.trans (hsame.trans hj)
    have hplace := ha.reduced _ (ha.numbered.mem_number i.isLt) _ (ha.numbered.mem_number j.isLt)
      hlanguages
    exact Fin.ext (Nat.add_left_cancel hplace)
  have hcard := Fintype.card_le_of_injective state hinjective
  rwa [Fintype.card_fin] at hcard

end Automaton.Canonical

end PatternAutomata
