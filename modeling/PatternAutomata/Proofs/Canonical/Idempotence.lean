/-
Determinizing and minimizing once more.

The subset construction gives a deterministic automaton that is numbered by words back as it was:
each set holds one state, and the words that lead to the set are those that led to the state, so it
gets the same number (`MadeOfSets.drawing_eq`). Minimizing gives a row of states with different
runs back as it was: each block has one member, and blocks are in the order of their members
(`MadeOfBlocks.drawing_eq`). What the two make is of these kinds, so to do either once more makes
nothing else (`Edit.determinize_minimize_idempotent`).
-/
import PatternAutomata.Proofs.Canonical.Coarsest
import PatternAutomata.Proofs.Canonical.Rows

set_option autoImplicit false

namespace PatternAutomata

open PatternAutomata.Graph

/-! ## Sets of one state -/

namespace Automaton.Sound

variable {g : Graph} {a : Automaton}

/-- Only words over the alphabet lead anywhere in a deterministic automaton: no edge is silent, and
the labels of all others are in the alphabet. -/
theorem mem_alphabet_of_path (ha : a.Sound g) (hd : g.Deterministic a.states) {v w : Vertex}
    {word : List Label} (hv : v ∈ a.states) (hpath : Path g v word w) :
    ∀ l ∈ word, l ∈ a.alphabet := by
  induction word generalizing v with
  | nil => exact fun l hl => absurd hl List.not_mem_nil
  | cons k word ih =>
    obtain ⟨hk, u, hu, hrest⟩ := (hd.path_cons_iff hv).1 hpath
    rw [List.forall_mem_cons]
    exact ⟨ha.label_mem v hv k u hu hk, ih (ha.target_mem hv hu) hrest⟩

/-- A word that leads anywhere in a deterministic automaton leads to one state. -/
theorem ends_eq_singleton (ha : a.Sound g) (hd : g.Deterministic a.states) {w : Vertex}
    {word : List Label} (hpath : Path g a.start word w) : g.ends {a.start} word = {w} := by
  have hword := hpath.epsilon_not_mem
  apply OrdSet.eq_singleton ((mem_ends_singleton_iff hword).2 hpath)
  intro u hu
  exact ha.path_unique hd ha.start_mem ((mem_ends_singleton_iff hword).1 hu) hpath

end Automaton.Sound

namespace MadeOfSets

variable {g h : Graph} {a d : Automaton} {items : List (List Label × VertexSet)}

/-- Words lead to one state if they lead to one set, and anywhere at all. No set is listed twice,
and the empty set is not listed. -/
theorem meet_iff (hd : MadeOfSets g a items h d) (ha : a.SelfContained g) {x y : List Label} :
    h.Meet g.size x y ↔ (∀ l ∈ x, l ∈ a.alphabet) ∧ (∀ l ∈ y, l ∈ a.alphabet) ∧
      (∃ v, v ∈ g.ends {a.start} x) ∧ g.ends {a.start} x = g.ends {a.start} y := by
  constructor
  · rintro ⟨w, hx, hy⟩
    obtain ⟨i, hi, rfl⟩ := hd.exists_number (hd.sound.path_mem hx hd.start_mem)
    obtain ⟨hx_word, hx_set⟩ := hd.follows hi hx
    obtain ⟨hy_word, hy_set⟩ := hd.follows hi hy
    refine ⟨hx_word, hy_word, ?_, hx_set.symm.trans hy_set⟩
    rw [← hx_set]
    exact hd.listing.inhabited _ (List.getElem_mem hi)
  · rintro ⟨hx_word, hy_word, hsome, heq⟩
    obtain ⟨i, hi, hx⟩ := hd.exists_path ha hx_word hsome
    obtain ⟨j, hj, hy⟩ := hd.exists_path ha hy_word (heq ▸ hsome)
    -- no set is listed twice
    have hset : items[i].2 = items[j].2 := by rw [hd.eq_ends hi hx, hd.eq_ends hj hy, heq]
    obtain rfl := hd.listing.index_unique hi hj hset
    exact ⟨_, hx, hy⟩

section Again

variable (hd : MadeOfSets g a items h d) (ha : a.Sound g) (hdet : g.Deterministic a.states)
include hd ha hdet

/-- The sets of a deterministic automaton hold one state each, so words meet where they did. -/
theorem meet_iff_meet {x y : List Label} : g.Meet a.start x y ↔ h.Meet g.size x y := by
  rw [hd.meet_iff ha.selfContained]
  constructor
  · rintro ⟨w, hx, hy⟩
    refine ⟨ha.mem_alphabet_of_path hdet ha.start_mem hx,
      ha.mem_alphabet_of_path hdet ha.start_mem hy, ?_, ?_⟩
    · exact ⟨w, (mem_ends_singleton_iff hx.epsilon_not_mem).2 hx⟩
    · rw [ha.ends_eq_singleton hdet hx, ha.ends_eq_singleton hdet hy]
  · rintro ⟨hx_word, hy_word, ⟨w, hw⟩, heq⟩
    have hx := ha.selfContained.epsilon_not_mem_word hx_word
    have hy := ha.selfContained.epsilon_not_mem_word hy_word
    exact ⟨w, (mem_ends_singleton_iff hx).1 hw, (mem_ends_singleton_iff hy).1 (heq ▸ hw)⟩

/-- A deterministic automaton that is numbered by words is drawn as what the subset construction
makes of it. The new automaton is numbered by words too, and the same words lead to one state, so
numbers and edges are the same. -/
theorem drawing_eq {first : Nat} {words : List (List Label)} (hn : a.Numbered g first words)
    (htrap : ∀ v ∈ a.states, (g.node v).isTrap = false) (halphabet : d.alphabet = a.alphabet) :
    d.drawing h = a.drawing g := by
  have hn' := hd.numbered ha.selfContained
  obtain rfl := hn.start_eq
  have hmeet : ∀ x y, g.Meet a.start x y ↔ h.Meet g.size x y :=
    fun _ _ => hd.meet_iff_meet ha hdet
  obtain rfl := hn.words_eq ha hdet hn' hd.sound hd.deterministic hmeet
  symm
  apply hn.drawing_eq ha hdet hn' hd.sound hd.deterministic hmeet
  · intro i hi
    have hi' : i < items.length := by rwa [List.length_map] at hi
    -- a word leads to one state and so to the set of it
    have hset : items[i].2 = {a.start + i} :=
      (hd.eq_ends hi' (hn'.path i hi)).trans (ha.ends_eq_singleton hdet (hn.path i hi))
    rw [hd.isAccepting_eq i hi', hset, anyAccepting, OrdSet.toList_singleton, List.any_cons,
      List.any_nil, Bool.or_false]
  · intro i hi
    rw [htrap _ (hn.mem_number hi), hd.isTrap_eq _ (hn'.mem_number hi)]
  · exact halphabet.symm

end Again

end MadeOfSets

/-! ## Blocks of one state -/

namespace MadeOfBlocks

variable {g h : Graph} {a d : Automaton} {blocks : List VertexSet}

/-- The states made of blocks lie in a row. -/
theorem inRow (hd : MadeOfBlocks g a blocks h d) : d.InRow h g.size blocks.length :=
  ⟨hd.sound, hd.deterministic, hd.mem_states, hd.id_eq⟩

/-- Members of blocks with the same runs have the same runs, since a block has the runs of its
members. -/
theorem sameRuns_of_sameRuns (hd : MadeOfBlocks g a blocks h d) (ha : a.Labelled g) {i j : Nat}
    (hi : i < blocks.length) (hj : j < blocks.length) {v w : Vertex} (hv : v ∈ blocks[i])
    (hw : w ∈ blocks[j]) (hsame : h.SameRuns (g.size + i) (g.size + j)) : g.SameRuns v w := by
  have hrun : ∀ {k : Nat} (hk : k < blocks.length) {u : Vertex}, u ∈ blocks[k] →
      ∀ word, (∃ x, Path g u word x) ↔ ∃ x, Path h (g.size + k) word x := by
    intro k hk u hu word
    constructor
    · rintro ⟨x, hx⟩
      obtain ⟨n, _, _, hpath⟩ := hd.path_of_path ha hx hk hu
      exact ⟨_, hpath⟩
    · rintro ⟨x, hx⟩
      obtain ⟨y, hy, _⟩ := hd.exists_path hx hk rfl hu
      exact ⟨y, hy⟩
  intro word
  obtain ⟨hrun_iff, haccept⟩ := hsame word
  refine ⟨by rw [hrun hi hv, hrun hj hw, hrun_iff], ?_⟩
  intro u x hu hx
  obtain ⟨k, hk, huk, hpath⟩ := hd.path_of_path ha hu hi hv
  obtain ⟨n, hn, hxn, hpath'⟩ := hd.path_of_path ha hx hj hw
  rw [← hd.isAccepting_eq k hk u huk, ← hd.isAccepting_eq n hn x hxn]
  exact haccept _ _ hpath hpath'

/-- Minimizing leaves no two states with the same runs: their members would have the same runs, and
so would be in one block. -/
theorem eq_of_sameRuns {m : Machine}
    (hmade : MadeOfBlocks m.graph m.automaton (Machine.blocksInOrder m.graph m.refined) h d)
    (hm : m.automaton.Labelled m.graph) (hd : m.graph.Deterministic m.automaton.states) :
    ∀ v ∈ d.states, ∀ w ∈ d.states, h.SameRuns v w → v = w := by
  intro v hv w hw hsame
  obtain ⟨i, hi, rfl⟩ := hmade.exists_number hv
  obtain ⟨j, hj, rfl⟩ := hmade.exists_number hw
  obtain ⟨x, hx⟩ := hmade.blocking.inhabited _ (List.getElem_mem hi)
  obtain ⟨y, hy⟩ := hmade.blocking.inhabited _ (List.getElem_mem hj)
  obtain ⟨u, hu, hxu, hyu⟩ := (hmade.sameBlock_iff hm hd (hmade.mem_states_old hi hx)
    (hmade.mem_states_old hj hy)).2 (hmade.sameRuns_of_sameRuns hm hi hj hx hy hsame)
  obtain ⟨k, hk, rfl⟩ := hmade.exists_number hu
  rw [hmade.standsFor_eq k hk] at hxu hyu
  rw [hmade.blocking.unique i hi k hk x hx hxu, hmade.blocking.unique j hj k hk y hy hyu]

section Again

variable {first n : Nat} (hd : MadeOfBlocks g a blocks h d) (ha : a.InRow g first n)
  (hapart : ∀ v ∈ a.states, ∀ w ∈ a.states, g.SameRuns v w → v = w)
include hd ha hapart

/-- The blocks of states with different runs have one member each, and lie as their members
do. -/
theorem blocks_eq : blocks = (List.range n).map fun i => ({first + i} : VertexSet) := by
  have hleast : ∀ i < n, Machine.leastId g {first + i} = i := by
    intro i hi
    obtain ⟨v, hv, hid, _⟩ := Machine.exists_leastId (g := g) ⟨_, OrdSet.mem_singleton.2 rfl⟩
    rw [← hid, OrdSet.mem_singleton.1 hv, ha.id_eq i hi]
  have hone : ∀ b ∈ blocks, ∀ v ∈ b, b = {v} := by
    intro b hb v hv
    obtain ⟨i, hi, rfl⟩ := List.getElem_of_mem hb
    -- members of one block have the same runs, so there is only one
    refine OrdSet.eq_singleton hv fun w hw => ?_
    exact hapart w (hd.mem_states_old hi hw) v (hd.mem_states_old hi hv)
      (hd.sameRuns ha.sound.labelled hi hw hv)
  refine OrdSet.eq_of_ascending (r := fun b c => Machine.leastId g b < Machine.leastId g c)
    Int.lt_asymm hd.blocking.ordered ?_ ?_
  · rw [List.pairwise_map]
    refine List.pairwise_lt_range.imp_of_mem fun {i j} hi hj hij => ?_
    rw [hleast i (List.mem_range.1 hi), hleast j (List.mem_range.1 hj)]
    exact Int.ofNat_lt.2 hij
  · intro b
    rw [List.mem_map]
    constructor
    · intro hb
      obtain ⟨v, hv⟩ := hd.blocking.inhabited b hb
      obtain ⟨k, hk, rfl⟩ := List.getElem_of_mem hb
      obtain ⟨i, hi, rfl⟩ := ha.exists_place (hd.mem_states_old hk hv)
      exact ⟨i, List.mem_range.2 hi, (hone _ hb _ hv).symm⟩
    · rintro ⟨i, hi, rfl⟩
      obtain ⟨k, hk, hmem⟩ := (hd.blocking.cover _).1 (ha.mem_place (List.mem_range.1 hi))
      have hb := List.getElem_mem hk
      rwa [hone _ hb _ hmem] at hb

/-- A row of states with different runs is drawn as what minimizing makes of it. Each block has the
place of its one member, so the two rows agree on flags and edges. -/
theorem drawing_eq (halphabet : d.alphabet = a.alphabet) : d.drawing h = a.drawing g := by
  have hblocks := hd.blocks_eq ha hapart
  have hlen : blocks.length = n := by rw [hblocks, List.length_map, List.length_range]
  have hblock : ∀ i (hi : i < blocks.length), blocks[i] = {first + i} := by
    intro i hi
    simp only [hblocks, List.getElem_map, List.getElem_range]
  have hrow := hd.inRow
  rw [hlen] at hrow
  refine hrow.drawing_eq ha ⟨?_, ?_, ?_, ?_, halphabet⟩
  · intro i hi
    obtain ⟨k, hk, hstart, heq⟩ := hd.start_eq
    rw [hblock k hk, OrdSet.mem_singleton] at hstart
    rw [heq, hstart]
    exact Nat.add_left_cancel_iff.trans Nat.add_left_cancel_iff.symm
  · intro i hi
    apply hd.isAccepting_eq i (hlen ▸ hi)
    rw [hblock, OrdSet.mem_singleton]
  · intro i hi
    rw [Bool.eq_iff_iff, hd.isTrap_iff i (hlen ▸ hi), hblock]
    simp only [OrdSet.mem_singleton, exists_eq_left]
  · intro i hi j hj l
    rw [hd.mem_destinations i (hlen ▸ hi) j (hlen ▸ hj), hblock, hblock]
    simp only [OrdSet.mem_singleton, exists_eq_left]

end Again

end MadeOfBlocks

/-! ## The edits -/

namespace Edit

/-- What an edit makes of a machine, it makes once more of what it has made: the same identifiers,
flags, alphabet and edges, and the symbols outside the alphabet are refused or not as before. -/
def Repeats (edit : Edit Automaton) (m : Machine) : Prop :=
  ∃ d m' d' m'', edit m = .ok d m' ∧ edit { m' with automaton := d } = .ok d' m'' ∧
    d'.drawing m''.graph = d.drawing m'.graph ∧ d'.strict = d.strict

/-- The subset construction gives back what it has made of any automaton without silent symbols in
its alphabet, and minimizing gives back what it has made of any deterministic one that has the
symbols of its edges in its alphabet. States out of reach are kept by minimizing, and are given back
as well. -/
theorem determinize_minimize_idempotent {m : Machine}
    (hcheck : m.automaton.violation? m.graph = none)
    (hepsilon : .epsilon ∉ m.automaton.alphabet) (hlive : m.automaton.discarded = false) :
    Repeats determinize m ∧ (m.automaton.isDeterministic m.graph = true →
      (∀ v ∈ m.automaton.states, ∀ l, ∀ w ∈ m.graph.destinations v l, l ∈ m.automaton.alphabet) →
        Repeats minimize m) := by
  have hwf := Automaton.violation?_eq_none_iff.1 hcheck
  constructor
  · have hself := hwf.selfContained hepsilon
    obtain ⟨d, m', items, hrun, hmade, _, _, _, hlive'⟩ := determinize_spec hself hlive
    obtain ⟨d', m'', items', hrun', hmade', _, halphabet, hstrict, _⟩ :=
      determinize_spec (m := { m' with automaton := d }) hmade.sound.selfContained hlive'
    refine ⟨d, m', d', m'', hrun, hrun', ?_, hstrict⟩
    exact hmade'.drawing_eq hmade.sound hmade.deterministic (hmade.numbered hself)
      hmade.isTrap_eq halphabet
  · intro hdet hlabel
    have hm : m.automaton.Labelled m.graph :=
      ⟨hwf, fun v hv l w hw _ => hlabel v hv l w hw, hepsilon⟩
    have hd := hwf.isDeterministic_iff.1 hdet
    obtain ⟨d, m', hrun, hmade, _, _, _, hlive'⟩ := minimize_spec hm hd hlive
    obtain ⟨d', m'', hrun', hmade', _, halphabet, hstrict, _⟩ :=
      minimize_spec (m := { m' with automaton := d }) hmade.sound.labelled hmade.deterministic
        hlive'
    refine ⟨d, m', d', m'', hrun, hrun', ?_, hstrict⟩
    exact hmade'.drawing_eq hmade.inRow (hmade.eq_of_sameRuns hm hd) halphabet

/-- Silent edges may go round, and states may be out of reach or lack symbols. -/
theorem determinize_minimize_idempotent_silentRound_sideEntry :
    (silentRound.automaton.violation? silentRound.graph = none ∧
      .epsilon ∉ silentRound.automaton.alphabet ∧ silentRound.automaton.discarded = false ∧
        Repeats determinize silentRound) ∧
      sideEntry.automaton.violation? sideEntry.graph = none ∧
        .epsilon ∉ sideEntry.automaton.alphabet ∧ sideEntry.automaton.discarded = false ∧
          sideEntry.automaton.isDeterministic sideEntry.graph = true ∧
            (∀ v ∈ sideEntry.automaton.states, ∀ l, ∀ w ∈ sideEntry.graph.destinations v l,
              l ∈ sideEntry.automaton.alphabet) ∧ Repeats minimize sideEntry := by
  have hround := Automaton.violation?_eq_none_iff.2 sound_silentRound.wellFormed
  have hepsilon := sound_silentRound.epsilon_not_mem
  have hside := Automaton.violation?_eq_none_iff.2 sound_sideEntry.wellFormed
  have hepsilon' := sound_sideEntry.epsilon_not_mem
  have hdet : sideEntry.automaton.isDeterministic sideEntry.graph = true := by decide
  have hlabel : ∀ v ∈ sideEntry.automaton.states, ∀ l, ∀ w ∈ sideEntry.graph.destinations v l,
      l ∈ sideEntry.automaton.alphabet := by
    intro v hv l w hw
    have hd := sound_sideEntry.wellFormed.isDeterministic_iff.1 hdet
    exact sound_sideEntry.label_mem v hv l w hw (hd.ne_epsilon hv hw)
  exact ⟨⟨hround, hepsilon, rfl, (determinize_minimize_idempotent hround hepsilon rfl).1⟩,
    hside, hepsilon', rfl, hdet, hlabel,
    (determinize_minimize_idempotent hside hepsilon' rfl).2 hdet hlabel⟩

end Edit

end PatternAutomata
