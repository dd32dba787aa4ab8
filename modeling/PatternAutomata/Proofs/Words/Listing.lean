/-
What is listed is what is accepted.

The texts of one length that lead anywhere make up a layer, each with the states that it leads to
(`Automaton.Layer`). Each of them, read on by every symbol that leads on from there, gives the next
layer. No text is lost, because what a text that leads somewhere begins with leads somewhere too;
and none is found twice, because it has one last symbol.

A layer ascends by code points. Texts of the same length keep their order whatever is added to them,
and additions to the same text are made in the order of the alphabet. So the whole list ascends by
length and then by code points, and it holds exactly the texts that are accepted when they are read
(`Edit.listAccepted_agrees`).
-/
import Mathlib.Data.List.Shortlex
import PatternAutomata.Proofs.Words.Tracking

set_option autoImplicit false

namespace PatternAutomata

open PatternAutomata.Graph

/-! ## Order -/

/-- By length, and then by code points. -/
def Text.Precedes (s t : String) : Prop := List.Shortlex (· < ·) s.toList t.toList

/-- A text does not precede itself, so a list that ascends holds nothing twice. -/
theorem Text.Precedes.ne {s t : String} (h : Text.Precedes s t) : s ≠ t := by
  rintro rfl
  exact irrefl s.toList h

/-- Different rows of one length keep their order whatever follows them: the first place at which
they differ decides, and it comes before what follows. -/
theorem lex_append_of_length_eq {α : Type} {r : α → α → Prop} {x y : List α} (h : List.Lex r x y)
    (hlength : x.length = y.length) (x' y' : List α) : List.Lex r (x ++ x') (y ++ y') := by
  induction h with
  | nil => cases hlength
  | cons _ ih => exact .cons (ih (Nat.succ.inj hlength))
  | rel hr => exact .rel hr

namespace Label

variable {c c' : Char}

/-- Labels that read one character come in the order of the characters. Alphabets are listed in the
order of labels, and texts are compared by characters. -/
theorem lt_of_compare_ofChar (h : compare (ofChar c) (ofChar c') = .lt) : c < c' := by
  have hlt : String.singleton c < String.singleton c' := compareOfLessAndEq_eq_lt.1 h
  rw [String.lt_iff_toList_lt, String.toList_singleton, String.toList_singleton] at hlt
  cases hlt with
  | rel hchar => exact hchar
  | cons hnil => cases hnil

theorem toList_text_ofChar (c : Char) : (ofChar c).text.toList = [c] := String.toList_singleton c

/-- A text with one more character is read as its labels and one more. -/
theorem ofText_append_text (s : String) (c : Char) :
    ofText (s ++ (ofChar c).text) = ofText s ++ [ofChar c] := by
  rw [ofText, String.toList_append, toList_text_ofChar, List.map_append]
  rfl

/-- A text that is not empty is read on from what comes before its last character. In this way each
text has one way of coming into its layer. -/
theorem exists_eq_append_text {s : String} {n : Nat} (h : s.length = n + 1) :
    ∃ (s' : String) (c : Char), s'.length = n ∧ s = s' ++ (ofChar c).text := by
  have hne : s.toList ≠ [] := by
    intro hnil
    rw [← String.length_toList, hnil] at h
    cases h
  refine ⟨String.ofList s.toList.dropLast, s.toList.getLast hne, ?_, ?_⟩
  · rw [← String.length_toList, String.toList_ofList, List.length_dropLast, String.length_toList, h]
    rfl
  · rw [← String.toList_inj, String.toList_append, toList_text_ofChar, String.toList_ofList,
      List.dropLast_append_getLast]

end Label

namespace Graph

variable {g : Graph} {vs : VertexSet}

/-- Only from nowhere does nothing lead anywhere without reading. -/
theorem closure_eq_empty_iff : g.closure vs = ∅ ↔ vs = ∅ := by
  simp only [OrdSet.eq_empty_iff]
  constructor
  · exact fun h v hv => h v (mem_closure_of_mem hv)
  · intro h w hw
    obtain ⟨v, hv, _⟩ := mem_closure_iff.1 hw
    exact h v hv

/-- What leads on from some states leads on from somewhere. -/
theorem ne_empty_of_targets_ne_empty {l : Label} (h : g.targets vs l ≠ ∅) : vs ≠ ∅ := by
  rintro rfl
  exact h (closure_eq_empty_iff.1 (closure_targets_empty l))

end Graph

/-! ## Layers -/

namespace Automaton

variable {g : Graph} {a : Automaton} {k n : Nat} {layer : List (String × VertexSet)}

/-- A layer holds the texts of one length over the alphabet that lead anywhere, each with the states
that it leads to, and they ascend. -/
structure Layer (g : Graph) (a : Automaton) (k : Nat) (layer : List (String × VertexSet)) :
    Prop where
  mem_iff : ∀ s vs, (s, vs) ∈ layer ↔ s.length = k ∧ (∀ l ∈ Label.ofText s, l ∈ a.alphabet) ∧
    vs = g.ends {a.start} (Label.ofText s) ∧ vs ≠ ∅
  ascending : layer.Pairwise fun e f => List.Lex (· < ·) e.1.toList f.1.toList

/-- A text is read on by the symbols that lead on from where it leads. -/
theorem mem_extensions {alphabet : List Label} {e f : String × VertexSet} :
    f ∈ extensions g alphabet e ↔ ∃ l ∈ alphabet, g.targets e.2 l ≠ ∅ ∧
      f = (e.1 ++ l.text, g.closure (g.targets e.2 l)) := by
  rw [extensions, List.mem_filterMap]
  refine exists_congr fun l => and_congr_right fun _ => ?_
  by_cases hl : (g.targets e.2 l).isEmpty = true
  · rw [if_pos hl]
    exact iff_of_false (by rintro ⟨⟩) fun h => h.1 (OrdSet.isEmpty_iff_eq.1 hl)
  · rw [if_neg hl, Option.some.injEq, eq_comm]
    exact (and_iff_right fun hnone => hl (OrdSet.isEmpty_iff_eq.2 hnone)).symm

/-- A text is read on in the order of the alphabet, so what it is read on to ascends. -/
theorem pairwise_extensions (hchars : ∀ l ∈ a.alphabet, ∃ c, l = .ofChar c)
    (e : String × VertexSet) : (extensions g a.alphabet.toList e).Pairwise
      fun f f' => List.Lex (· < ·) f.1.toList f'.1.toList := by
  rw [extensions, List.pairwise_filterMap]
  refine a.alphabet.ascending.imp_of_mem ?_
  intro l l' hl hl' hlt f hf f' hf'
  obtain ⟨c, rfl⟩ := hchars l hl
  obtain ⟨c', rfl⟩ := hchars l' hl'
  have htext : ∀ {c : Char} {f : String × VertexSet},
      (if (g.targets e.2 (.ofChar c)).isEmpty = true then none
        else some (e.1 ++ (Label.ofChar c).text, g.closure (g.targets e.2 (.ofChar c)))) = some f →
        f.1.toList = e.1.toList ++ [c] := by
    intro c f hf
    split at hf
    · cases hf
    · obtain rfl := Option.some.inj hf
      rw [String.toList_append, Label.toList_text_ofChar]
  rw [htext hf, htext hf']
  exact .append_left _ (.rel (Label.lt_of_compare_ofChar hlt)) _

namespace Layer

/-- The empty text leads to the beginning, which is never nowhere. -/
theorem zero (g : Graph) (a : Automaton) : Layer g a 0 [("", g.closure {a.start})] where
  mem_iff s vs := by
    rw [List.mem_singleton, Prod.mk.injEq]
    constructor
    · rintro ⟨rfl, rfl⟩
      refine ⟨rfl, fun l hl => absurd hl List.not_mem_nil, rfl, ?_⟩
      intro hnone
      have hstart := g.mem_closure_of_mem (OrdSet.mem_singleton.2 (rfl : a.start = a.start))
      rw [hnone] at hstart
      exact OrdSet.not_mem_empty _ hstart
    · rintro ⟨hlength, _, rfl, _⟩
      obtain rfl := String.length_eq_zero_iff.1 hlength
      exact ⟨rfl, rfl⟩
  ascending := List.pairwise_singleton _ _

/-- Reading on by each symbol that leads anywhere gives the next layer. The members and the order
are looked at apart: that a text is found needs its beginning, and that it comes in order needs the
lengths to be equal. -/
theorem succ (h : Layer g a k layer) (hchars : ∀ l ∈ a.alphabet, ∃ c, l = .ofChar c) :
    Layer g a (k + 1) (layer.flatMap (extensions g a.alphabet.toList)) where
  mem_iff s vs := by
    rw [List.mem_flatMap]
    constructor
    · rintro ⟨⟨s', vs'⟩, he, hf⟩
      obtain ⟨hlength, hover, rfl, _⟩ := (h.mem_iff s' vs').1 he
      obtain ⟨l, hl, hlead, heq⟩ := mem_extensions.1 hf
      obtain ⟨rfl, rfl⟩ := Prod.mk.inj heq
      obtain ⟨c, rfl⟩ := hchars l hl
      refine ⟨?_, ?_, ?_, fun hnone => hlead (closure_eq_empty_iff.1 hnone)⟩
      · rw [← String.length_toList, String.toList_append, Label.toList_text_ofChar,
          List.length_append, String.length_toList, hlength]
        rfl
      · rw [Label.ofText_append_text, List.forall_mem_append, List.forall_mem_singleton]
        exact ⟨hover, hl⟩
      · rw [Label.ofText_append_text, ends_append]
    · rintro ⟨hlength, hover, rfl, hlead⟩
      obtain ⟨s', c, hlength', rfl⟩ := Label.exists_eq_append_text hlength
      rw [Label.ofText_append_text, List.forall_mem_append, List.forall_mem_singleton] at hover
      rw [Label.ofText_append_text, ends_append] at hlead ⊢
      have htargets : g.targets (g.ends {a.start} (Label.ofText s')) (.ofChar c) ≠ ∅ :=
        fun hnone => hlead (closure_eq_empty_iff.2 hnone)
      -- what the text begins with leads somewhere, so it is in the layer before
      have he := (h.mem_iff s' _).2
        ⟨hlength', hover.1, rfl, ne_empty_of_targets_ne_empty htargets⟩
      exact ⟨_, he, mem_extensions.2 ⟨_, hover.2, htargets, rfl⟩⟩
  ascending := by
    rw [List.pairwise_flatMap]
    constructor
    · exact fun e _ => pairwise_extensions hchars e
    · -- of different texts, what they are read on by does not matter
      refine h.ascending.imp_of_mem ?_
      rintro ⟨s, vs⟩ ⟨t, ws⟩ hs ht hlt e he f hf
      obtain ⟨l, _, _, rfl⟩ := mem_extensions.1 he
      obtain ⟨l', _, _, rfl⟩ := mem_extensions.1 hf
      have hlength : s.toList.length = t.toList.length := by
        rw [String.length_toList, String.length_toList, ((h.mem_iff s vs).1 hs).1,
          ((h.mem_iff t ws).1 ht).1]
      rw [String.toList_append, String.toList_append]
      exact lex_append_of_length_eq hlt hlength _ _

/-- Of a layer those texts are listed that lead to acceptance. -/
theorem mem_acceptedTexts (h : Layer g a k layer) {s : String} : s ∈ acceptedTexts g layer ↔
    s.length = k ∧ (∀ l ∈ Label.ofText s, l ∈ a.alphabet) ∧
      g.anyAccepting (g.ends {a.start} (Label.ofText s)) = true := by
  rw [acceptedTexts, List.mem_map]
  constructor
  · rintro ⟨⟨s, vs⟩, he, rfl⟩
    obtain ⟨he, haccepting⟩ := List.mem_filter.1 he
    obtain ⟨hlength, hover, rfl, _⟩ := (h.mem_iff s vs).1 he
    exact ⟨hlength, hover, haccepting⟩
  · rintro ⟨hlength, hover, haccepting⟩
    have hsome : g.ends {a.start} (Label.ofText s) ≠ ∅ := by
      intro hnone
      rw [hnone] at haccepting
      cases haccepting
    have he := (h.mem_iff s _).2 ⟨hlength, hover, rfl, hsome⟩
    exact ⟨(s, _), List.mem_filter.2 ⟨he, haccepting⟩, rfl⟩

/-- From a layer on, the texts of its length and of so many more are listed if they are accepted. By
induction on the number of layers to come. -/
theorem mem_acceptedFrom (h : Layer g a k layer) (hchars : ∀ l ∈ a.alphabet, ∃ c, l = .ofChar c)
    {s : String} : s ∈ acceptedFrom g a.alphabet.toList n layer ↔
      k ≤ s.length ∧ s.length ≤ k + n ∧ (∀ l ∈ Label.ofText s, l ∈ a.alphabet) ∧
        g.anyAccepting (g.ends {a.start} (Label.ofText s)) = true := by
  induction n generalizing k layer with
  | zero =>
    rw [acceptedFrom, h.mem_acceptedTexts]
    constructor
    · rintro ⟨hlength, hrest⟩
      exact ⟨by omega, by omega, hrest⟩
    · rintro ⟨hle, hge, hrest⟩
      exact ⟨by omega, hrest⟩
  | succ n ih =>
    rw [acceptedFrom, List.mem_append, h.mem_acceptedTexts, ih (h.succ hchars)]
    constructor
    · rintro (⟨hlength, hrest⟩ | ⟨hle, hge, hrest⟩)
      · exact ⟨by omega, by omega, hrest⟩
      · exact ⟨by omega, by omega, hrest⟩
    · rintro ⟨hle, hge, hrest⟩
      rcases Nat.eq_or_lt_of_le hle with heq | hlt
      · exact Or.inl ⟨heq.symm, hrest⟩
      · exact Or.inr ⟨hlt, by omega, hrest⟩

/-- What is listed of a layer ascends. -/
theorem pairwise_acceptedTexts (h : Layer g a k layer) :
    (acceptedTexts g layer).Pairwise Text.Precedes := by
  rw [acceptedTexts, List.pairwise_map]
  refine (h.ascending.filter _).imp_of_mem ?_
  rintro ⟨s, vs⟩ ⟨t, ws⟩ hs ht hlt
  refine .of_lex ?_ hlt
  have hs' := (h.mem_iff s vs).1 (List.mem_filter.1 hs).1
  have ht' := (h.mem_iff t ws).1 (List.mem_filter.1 ht).1
  rw [String.length_toList, String.length_toList, hs'.1, ht'.1]

/-- From a layer on, what is listed ascends by length and then by code points: later layers are
longer. -/
theorem pairwise_acceptedFrom (h : Layer g a k layer)
    (hchars : ∀ l ∈ a.alphabet, ∃ c, l = .ofChar c) :
    (acceptedFrom g a.alphabet.toList n layer).Pairwise Text.Precedes := by
  induction n generalizing k layer with
  | zero => exact h.pairwise_acceptedTexts
  | succ n ih =>
    rw [acceptedFrom, List.pairwise_append]
    refine ⟨h.pairwise_acceptedTexts, ih (h.succ hchars), ?_⟩
    intro s hs t ht
    have hshort := (h.mem_acceptedTexts.1 hs).1
    have hlong := (((h.succ hchars).mem_acceptedFrom hchars).1 ht).1
    apply List.Shortlex.of_length_lt
    rw [String.length_toList, String.length_toList]
    omega

end Layer

/-- The accepted texts up to a length are those of the alphabet that lead to acceptance. If the
length is negative there are none. -/
theorem mem_acceptedUpTo (hchars : ∀ l ∈ a.alphabet, ∃ c, l = .ofChar c) {longest : Int}
    {s : String} : s ∈ acceptedUpTo g a longest ↔
      (s.length : Int) ≤ longest ∧ (∀ l ∈ Label.ofText s, l ∈ a.alphabet) ∧
        g.anyAccepting (g.ends {a.start} (Label.ofText s)) = true := by
  rw [acceptedUpTo]
  split
  · exact iff_of_false List.not_mem_nil fun h => by omega
  · rw [(Layer.zero g a).mem_acceptedFrom hchars, ← and_assoc]
    refine and_congr_left' ?_
    omega

/-- The whole list ascends by length and then by code points. -/
theorem pairwise_acceptedUpTo (hchars : ∀ l ∈ a.alphabet, ∃ c, l = .ofChar c) (longest : Int) :
    (acceptedUpTo g a longest).Pairwise Text.Precedes := by
  rw [acceptedUpTo]
  split
  · exact .nil
  · exact (Layer.zero g a).pairwise_acceptedFrom hchars

end Automaton

/-! ## Listing and reading -/

namespace Edit

variable {m : Machine}

/-- Over the alphabet every text is answered, and the texts that are accepted are listed up to any
length, each of them once and in the order of their lengths and then of their code points. Listing
leaves the machine as it is, so what was read before can be read on. -/
theorem listAccepted_agrees (hlive : m.automaton.discarded = false)
    (hchars : ∀ l ∈ m.automaton.alphabet, ∃ c, l = .ofChar c) (longest : Int) :
    ∃ texts, Edit.listAccepted longest m = .ok texts m ∧
      (∀ s : String, (∀ l ∈ Label.ofText s, l ∈ m.automaton.alphabet) →
        ∃ answer m', Edit.accepts (Label.ofText s) m = .ok answer m' ∧
          (s ∈ texts ↔ (s.length : Int) ≤ longest ∧ answer = true)) ∧
      (∀ s ∈ texts, ∀ l ∈ Label.ofText s, l ∈ m.automaton.alphabet) ∧
      texts.Nodup ∧ texts.Pairwise Text.Precedes := by
  have hsorted := Automaton.pairwise_acceptedUpTo (g := m.graph) hchars longest
  refine ⟨m.automaton.acceptedUpTo m.graph longest, rfl, ?_, ?_, hsorted.imp Text.Precedes.ne,
    hsorted⟩
  · intro s hover
    refine ⟨_, _, accepts_eq hlive fun l hl => Or.inl (hover l hl), ?_⟩
    rw [← Machine.current_reset_advanceAll, Machine.current_advanceAll_reset hover,
      Automaton.mem_acceptedUpTo hchars, and_iff_right hover]
  · intro s hs
    exact ((Automaton.mem_acceptedUpTo hchars).1 hs).2.1

/-- Two states between which every letter but the last leads in more than one way, if silent steps
are counted. -/
def twoWays : Machine :=
  threeBare.connectAll [⟨0, .epsilon, 1⟩, ⟨1, .symbol "a", 1⟩, ⟨1, .symbol "a", 0⟩,
    ⟨1, .symbol "b", 0⟩, ⟨2, .symbol "c", 1⟩]

theorem sound_twoWays : twoWays.automaton.Sound twoWays.graph :=
  sound_threeBare.connectAll (by decide)

/-- All texts over the first two letters are listed, up to the length asked for, and none with the
third. -/
theorem acceptedUpTo_twoWays : twoWays.automaton.acceptedUpTo twoWays.graph 2 =
    ["", "a", "b", "aa", "ab", "ba", "bb"] := by
  cbv

/-- However many ways there are to read a text, it is listed once, and one that starts with the last
letter is not listed. -/
theorem listAccepted_agrees_twoWays : twoWays.automaton.discarded = false ∧
    twoWays.automaton.violation? twoWays.graph = none ∧
    (∀ l ∈ twoWays.automaton.alphabet, ∃ c, l = .ofChar c) ∧
    Edit.listAccepted 2 twoWays = .ok ["", "a", "b", "aa", "ab", "ba", "bb"] twoWays ∧
    (∃ m', Edit.accepts (Label.ofText "ba") twoWays = .ok true m') ∧
      ∃ m', Edit.accepts (Label.ofText "ca") twoWays = .ok false m' := by
  have hchars : ∀ l ∈ twoWays.automaton.alphabet, ∃ c, l = .ofChar c := by
    have hletters : ∀ l ∈ twoWays.automaton.alphabet,
        l = .ofChar 'a' ∨ l = .ofChar 'b' ∨ l = .ofChar 'c' := by decide
    intro l hl
    rcases hletters l hl with h | h | h
    · exact ⟨'a', h⟩
    · exact ⟨'b', h⟩
    · exact ⟨'c', h⟩
  have hlist : Edit.listAccepted 2 twoWays =
      .ok ["", "a", "b", "aa", "ab", "ba", "bb"] twoWays := by
    rw [← acceptedUpTo_twoWays]
    rfl
  obtain ⟨texts, htexts, hanswered, _⟩ := listAccepted_agrees (m := twoWays) rfl hchars 2
  rw [hlist] at htexts
  obtain ⟨rfl, -⟩ := EStateM.Result.ok.inj htexts
  obtain ⟨answer, m', hba, hanswer⟩ := hanswered "ba" (by decide)
  obtain rfl : answer = true := (hanswer.1 (by decide)).2
  obtain ⟨answer', m'', hca, hanswer'⟩ := hanswered "ca" (by decide)
  obtain rfl : answer' = false := by
    cases answer' with
    | false => rfl
    | true => exact absurd (hanswer'.2 ⟨by decide, rfl⟩) (by decide)
  exact ⟨rfl, Automaton.violation?_eq_none_iff.2 sound_twoWays.wellFormed, hchars, hlist, ⟨m', hba⟩,
    m'', hca⟩

end Edit

end PatternAutomata
