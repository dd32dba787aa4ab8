/-
The sets of the subset construction, in the order of words.

The search for the sets that words lead to can carry the words along, and meets the same
sets (`map_subsetWords`). Each set is then met with the earliest word that leads to it, and
the sets are listed in the order of these words (`listing_subsetWords`). `Listing` says what
is used of that; the main fact drawn from it is that every word over the alphabet which leads
anywhere leads to a listed set, whose own word is no later (`Listing.exists_index`).

Of the automaton it is asked that no edge leads out of it and that sets of its states are
known by their identifiers (`Automaton.SelfContained`). Its edges may read symbols that are
not in its alphabet; no set is met by such a symbol.
-/
import PatternAutomata.Automaton.Subsets
import PatternAutomata.Proofs.Canonical.Numbering
import PatternAutomata.Proofs.Canonical.Searching
import PatternAutomata.Proofs.Structure.Joining

set_option autoImplicit false

namespace PatternAutomata

namespace Automaton

/-- What the subset construction asks of an automaton: no edge leads out of it, its identifiers
differ, and what reads nothing is no symbol of its alphabet. -/
structure SelfContained (g : Graph) (a : Automaton) : Prop where
  start_mem : a.start ∈ a.states
  id_injective : ∀ v ∈ a.states, ∀ w ∈ a.states, (g.node v).id = (g.node w).id → v = w
  target_mem : ∀ v ∈ a.states, ∀ l, ∀ w ∈ g.destinations v l, w ∈ a.states
  epsilon_not_mem : .epsilon ∉ a.alphabet

variable {g : Graph} {a : Automaton}

/-- An automaton that passes the check lacks only that its alphabet may list the silent label. -/
theorem WellFormed.selfContained (ha : a.WellFormed g) (hepsilon : .epsilon ∉ a.alphabet) :
    a.SelfContained g :=
  ⟨ha.start_mem, ha.id_injective, ha.target_mem, hepsilon⟩

/-- A sound automaton does not list it. -/
theorem Sound.selfContained (ha : a.Sound g) : a.SelfContained g :=
  ha.wellFormed.selfContained ha.epsilon_not_mem

namespace SelfContained

/-- A word over the alphabet has no silent label in it. -/
theorem epsilon_not_mem_word (ha : a.SelfContained g) {word : List Label}
    (hword : ∀ l ∈ word, l ∈ a.alphabet) : .epsilon ∉ word :=
  fun hmem => ha.epsilon_not_mem (hword _ hmem)

/-- A word over the alphabet does not lead out of the automaton. -/
theorem ends_sub (ha : a.SelfContained g) {word : List Label}
    (hword : ∀ l ∈ word, l ∈ a.alphabet) : ∀ v ∈ g.ends {a.start} word, v ∈ a.states := by
  intro v hv
  have hpath := (Graph.mem_ends_singleton_iff (ha.epsilon_not_mem_word hword)).1 hv
  exact hpath.preserves (p := (· ∈ a.states)) ha.start_mem ha.target_mem

end SelfContained

end Automaton

namespace Graph

variable {g : Graph} {a : Automaton} {alphabet : List Label}

/-! ## Names of sets -/

/-- The name of a set lists the identifiers of its members. -/
theorem mem_idSet {vs : VertexSet} {i : Int} :
    i ∈ g.idSet vs ↔ ∃ v ∈ vs, (g.node v).id = i := by
  rw [idSet, OrdSet.mem_ofList, List.mem_map]
  exact Iff.rfl

/-- Among states whose identifiers differ, a set is known by its name, which is the set of
identifiers. -/
theorem eq_of_idSet_eq {S vs ws : VertexSet}
    (hid : ∀ v ∈ S, ∀ w ∈ S, (g.node v).id = (g.node w).id → v = w) (hvs : ∀ v ∈ vs, v ∈ S)
    (hws : ∀ w ∈ ws, w ∈ S) (h : g.idSet vs = g.idSet ws) : vs = ws := by
  have hsub : ∀ {us ts : VertexSet}, (∀ v ∈ us, v ∈ S) → (∀ v ∈ ts, v ∈ S) →
      g.idSet us = g.idSet ts → ∀ v ∈ us, v ∈ ts := by
    intro us ts hus hts heq v hv
    have hname : (g.node v).id ∈ g.idSet ts := heq ▸ mem_idSet.2 ⟨v, hv, rfl⟩
    obtain ⟨w, hw, hwv⟩ := mem_idSet.1 hname
    rwa [← hid w (hts w hw) v (hus v hv) hwv]
  exact OrdSet.ext fun v => ⟨hsub hvs hws h v, hsub hws hvs h.symm v⟩

/-- Within an automaton whose identifiers differ, a set is known by its name. -/
theorem idSet_injective (ha : a.SelfContained g) {vs ws : VertexSet} (hvs : ∀ v ∈ vs, v ∈ a.states)
    (hws : ∀ w ∈ ws, w ∈ a.states) (h : g.idSet vs = g.idSet ws) : vs = ws :=
  eq_of_idSet_eq ha.id_injective hvs hws h

/-! ## One symbol -/

/-- A symbol leads from a set to all that an edge with it leads to, and on without reading. If that
is nothing, it leads to no set. -/
theorem subsetAfter?_eq_some_iff {vs ws : VertexSet} {l : Label} :
    g.subsetAfter? vs l = some ws ↔ ws = g.closure (g.targets vs l) ∧ ∃ w, w ∈ ws := by
  have hempty : (g.targets vs l).isEmpty = true ↔ ¬∃ w, w ∈ g.closure (g.targets vs l) := by
    rw [OrdSet.isEmpty_iff]
    constructor
    · rintro h ⟨w, hw⟩
      obtain ⟨v, hv, _⟩ := mem_closure_iff.1 hw
      exact h v hv
    · intro h v hv
      exact h ⟨v, mem_closure_of_mem hv⟩
  rw [subsetAfter?]
  by_cases h : (g.targets vs l).isEmpty = true
  · rw [if_pos h]
    constructor
    · intro heq
      cases heq
    · rintro ⟨rfl, hw⟩
      exact absurd hw (hempty.1 h)
  · rw [if_neg h, Option.some.injEq]
    constructor
    · rintro rfl
      exact ⟨rfl, not_not.1 fun hno => h (hempty.2 hno)⟩
    · rintro ⟨rfl, _⟩
      rfl

/-- A word with the states that it leads to, read on by each symbol that leads anywhere. -/
def wordsAfter (g : Graph) (alphabet : List Label) (e : List Label × VertexSet) :
    List (List Label × VertexSet) :=
  alphabet.filterMap fun l => (g.subsetAfter? e.2 l).map fun ws => (e.1 ++ [l], ws)

/-- A word is read on by one symbol of the alphabet, if that leads anywhere. -/
theorem mem_wordsAfter {d e : List Label × VertexSet} : d ∈ g.wordsAfter alphabet e ↔
    ∃ l ∈ alphabet, d.1 = e.1 ++ [l] ∧ g.subsetAfter? e.2 l = some d.2 := by
  obtain ⟨word, vs⟩ := d
  rw [wordsAfter, List.mem_filterMap]
  simp only [Option.map_eq_some_iff, Prod.mk.injEq]
  constructor
  · rintro ⟨l, hl, ws, hws, rfl, rfl⟩
    exact ⟨l, hl, rfl, hws⟩
  · rintro ⟨l, hl, rfl, hvs⟩
    exact ⟨l, hl, vs, hvs, rfl, rfl⟩

/-- Without the words these are the sets that the search goes on to. -/
theorem map_wordsAfter (e : List Label × VertexSet) :
    (g.wordsAfter alphabet e).map Prod.snd = g.subsetsAfter alphabet e.2 := by
  rw [wordsAfter, subsetsAfter, List.map_filterMap]
  congr 1
  funext l
  rw [Option.map_map]
  exact Option.map_id'

/-- Only finitely many sets can be met, as there are finitely many identifiers. -/
theorem finite_wordsAfter (g : Graph) (alphabet : List Label) :
    ∃ keys : List (OrdSet Int), ∀ e, ∀ d ∈ g.wordsAfter alphabet e,
      (g.idSet ∘ Prod.snd) d ∈ keys := by
  obtain ⟨keys, hkeys⟩ := g.finite_subsetsAfter alphabet
  refine ⟨keys, fun e d hd => hkeys e.2 d.2 ?_⟩
  rw [← map_wordsAfter]
  exact List.mem_map_of_mem hd

/-- Words are read on one symbol at a time and in their order. So the search meets the words of one
length after the other, and each length in order. -/
theorem stepwise_wordsAfter (halphabet : alphabet.Pairwise fun l k => compare l k = .lt) :
    Search.Stepwise (g.wordsAfter alphabet) (fun e => e.1.length)
      (fun d e => Earlier d.1 e.1) where
  deeper e d hd := by
    obtain ⟨l, _, heq, _⟩ := mem_wordsAfter.1 hd
    rw [heq, List.length_append, List.length_singleton]
  shallow _ _ h := .of_length_lt h
  siblings e := by
    rw [wordsAfter, List.pairwise_filterMap]
    refine halphabet.imp fun {l k} hlk d hd c hc => ?_
    obtain ⟨_, _, rfl⟩ := Option.map_eq_some_iff.1 hd
    obtain ⟨_, _, rfl⟩ := Option.map_eq_some_iff.1 hc
    exact .append_symbol _ hlk
  cousins e d h hlen c hc b hb := by
    obtain ⟨l, _, hcl, _⟩ := mem_wordsAfter.1 hc
    obtain ⟨k, _, hbk, _⟩ := mem_wordsAfter.1 hb
    rw [hcl, hbk]
    exact h.append hlen

/-! ## The search -/

/-- The sets of states that words lead to, each with the word it is met by. -/
def subsetWords (g : Graph) (alphabet : List Label) (start : VertexSet) :
    List (List Label × VertexSet) :=
  (Search.layers (g.idSet ∘ Prod.snd) (g.wordsAfter alphabet) (g.finite_wordsAfter alphabet)
    [([], start)]).flatten

/-- Carrying words along does not change the sets that are met. -/
theorem map_subsetWords (g : Graph) (alphabet : List Label) (start : VertexSet) :
    (g.subsetWords alphabet start).map Prod.snd = g.subsets alphabet start :=
  Search.map_layers (f := Prod.snd) map_wordsAfter [([], start)]

/-- What a listing of sets with their words has to offer: each set is the one that its word
over the alphabet leads to, sets are listed once and in the order of their words, and what is read
on is listed with a word that is no later. -/
structure Listing (g : Graph) (a : Automaton) (items : List (List Label × VertexSet)) :
    Prop where
  head_eq : items.head? = some ([], g.closure {a.start})
  word : ∀ e ∈ items, ∀ l ∈ e.1, l ∈ a.alphabet
  reads : ∀ e ∈ items, e.2 = g.ends {a.start} e.1
  inhabited : ∀ e ∈ items, ∃ v, v ∈ e.2
  ascending : items.Pairwise fun d e => Earlier d.1 e.1
  nodup : (items.map fun e => g.idSet e.2).Nodup
  complete : ∀ e ∈ items, ∀ d ∈ g.wordsAfter a.alphabet.toList e,
    ∃ c ∈ items, g.idSet c.2 = g.idSet d.2 ∧ ¬Earlier d.1 c.1

/-- The search offers such a listing. Each fact about single items holds of the first one and is
handed on by a step; that the words ascend and that no set is listed twice is known of searches in
general. -/
theorem listing_subsetWords (g : Graph) (a : Automaton) :
    Listing g a (g.subsetWords a.alphabet.toList (g.closure {a.start})) where
  head_eq := by
    rw [subsetWords, Search.layers, Search.layersFrom, List.flatten_cons]
    rfl
  word := by
    apply Search.forall_mem_layers
    · intro e he
      rw [List.mem_singleton.1 he]
      exact fun l hl => absurd hl List.not_mem_nil
    · intro e he d hd k hk
      obtain ⟨l, hl, heq, _⟩ := mem_wordsAfter.1 hd
      rw [heq, List.mem_append, List.mem_singleton] at hk
      rcases hk with hk | rfl
      · exact he k hk
      · exact hl
  reads := by
    apply Search.forall_mem_layers
    · intro e he
      rw [List.mem_singleton.1 he]
      rfl
    · intro e he d hd
      obtain ⟨l, _, heq, hafter⟩ := mem_wordsAfter.1 hd
      rw [heq, ends_append, ← he]
      exact (subsetAfter?_eq_some_iff.1 hafter).1
  inhabited := by
    apply Search.forall_mem_layers
    · intro e he
      rw [List.mem_singleton.1 he]
      exact ⟨a.start, mem_closure_of_mem (OrdSet.mem_singleton.2 rfl)⟩
    · intro e _ d hd
      obtain ⟨l, _, _, hafter⟩ := mem_wordsAfter.1 hd
      exact (subsetAfter?_eq_some_iff.1 hafter).2
  ascending := (stepwise_wordsAfter a.alphabet.ascending).pairwise_layers _
  nodup := Search.nodup_layers (List.nodup_cons.2 ⟨List.not_mem_nil, .nil⟩)
  complete e he d hd := by
    obtain ⟨c, hc, hkey, hle⟩ :=
      (stepwise_wordsAfter a.alphabet.ascending).exists_mem_layers he hd
    refine ⟨c, hc, hkey, ?_⟩
    -- layers list words in their order, so what stands for a set is not later
    rcases hle with rfl | hlt
    · exact Earlier.irrefl _
    · exact fun h => hlt.asymm h

namespace Listing

variable {items : List (List Label × VertexSet)}

/-- The sets lie in the automaton. -/
theorem sub (hl : Listing g a items) (ha : a.SelfContained g) {e : List Label × VertexSet}
    (he : e ∈ items) : ∀ v ∈ e.2, v ∈ a.states := by
  rw [hl.reads e he]
  exact ha.ends_sub (hl.word e he)

/-- The set that the start state leads to is listed. -/
theorem length_pos (hl : Listing g a items) : 0 < items.length := by
  have hhead := hl.head_eq
  cases items with
  | nil => nomatch hhead
  | cons e items => exact Nat.succ_pos _

/-- It is listed first, with the empty word. -/
theorem getElem_zero (hl : Listing g a items) (hpos : 0 < items.length) :
    items[0] = ([], g.closure {a.start}) := by
  have hhead := hl.head_eq
  rw [List.head?_eq_getElem?, List.getElem?_eq_getElem hpos] at hhead
  exact Option.some.inj hhead

/-- The set of a word is listed at one place only. -/
theorem index_unique (hl : Listing g a items) {i j : Nat} (hi : i < items.length)
    (hj : j < items.length) (h : items[i].2 = items[j].2) : i = j := by
  have hi' : i < (items.map fun e => g.idSet e.2).length := by rwa [List.length_map]
  have hj' : j < (items.map fun e => g.idSet e.2).length := by rwa [List.length_map]
  have hsame : (items.map fun e => g.idSet e.2)[i] = (items.map fun e => g.idSet e.2)[j] := by
    rw [List.getElem_map, List.getElem_map, h]
  exact hl.nodup.getElem_inj_iff.1 hsame

/-- Every word over the alphabet that leads anywhere leads to a listed set, whose own word is no
later. By induction on the word, from its end: the set of the shorter word is listed, and what the
last symbol leads to from there is listed with a word no later than the own word of that set with
the symbol. -/
theorem exists_index (hl : Listing g a items) (ha : a.SelfContained g) {word : List Label}
    (hword : ∀ l ∈ word, l ∈ a.alphabet) (hsome : ∃ v, v ∈ g.ends {a.start} word) :
    ∃ i, ∃ h : i < items.length,
      items[i].2 = g.ends {a.start} word ∧ ¬Earlier word items[i].1 := by
  induction word using List.reverseRecOn with
  | nil =>
    refine ⟨0, hl.length_pos, ?_, ?_⟩
    · rw [hl.getElem_zero]
      rfl
    · rw [hl.getElem_zero]
      exact Earlier.irrefl _
  | append_singleton word l ih =>
    have hsub := ha.ends_sub hword
    rw [List.forall_mem_append, List.forall_mem_singleton] at hword
    obtain ⟨w, hw⟩ := hsome
    rw [ends_append] at hw hsub ⊢
    obtain ⟨u, hu, _⟩ := mem_closure_iff.1 hw
    obtain ⟨v, hv, _⟩ := mem_targets.1 hu
    obtain ⟨i, hi, hset, hle⟩ := ih hword.1 ⟨v, hv⟩
    -- the set of the shorter word is read on by the last symbol
    have hafter : g.subsetAfter? items[i].2 l =
        some (g.closure (g.targets (g.ends {a.start} word) l)) := by
      rw [subsetAfter?_eq_some_iff, hset]
      exact ⟨rfl, w, hw⟩
    obtain ⟨c, hc, hkey, hcle⟩ := hl.complete items[i] (List.getElem_mem hi)
      (items[i].1 ++ [l], _) (mem_wordsAfter.2 ⟨l, hword.2, rfl, hafter⟩)
    obtain ⟨j, hj, rfl⟩ := List.getElem_of_mem hc
    exact ⟨j, hj, idSet_injective ha (hl.sub ha hc) hsub hkey,
      Earlier.not_trans hcle (Earlier.not_append hle l)⟩

/-- What a symbol leads to from a listed set is listed. -/
theorem exists_index_after (hl : Listing g a items) (ha : a.SelfContained g) {i : Nat}
    (hi : i < items.length) {l : Label} (hl_mem : l ∈ a.alphabet) {ws : VertexSet}
    (hws : g.subsetAfter? items[i].2 l = some ws) : ∃ j, ∃ h : j < items.length,
      items[j].2 = ws := by
  obtain ⟨heq, hsome⟩ := subsetAfter?_eq_some_iff.1 hws
  rw [hl.reads _ (List.getElem_mem hi), ← ends_append] at heq
  have hword : ∀ k ∈ items[i].1 ++ [l], k ∈ a.alphabet := by
    rw [List.forall_mem_append, List.forall_mem_singleton]
    exact ⟨hl.word _ (List.getElem_mem hi), hl_mem⟩
  obtain ⟨j, hj, hset, _⟩ := hl.exists_index ha hword (heq ▸ hsome)
  exact ⟨j, hj, hset.trans heq.symm⟩

/-- Each listed set but the first is what a symbol leads to from a listed set. -/
theorem exists_index_before (hl : Listing g a items) (ha : a.SelfContained g) {j : Nat}
    (hj : j < items.length) (hpos : 0 < j) : ∃ i, ∃ h : i < items.length, ∃ l ∈ a.alphabet,
      g.subsetAfter? items[i].2 l = some items[j].2 := by
  -- only the first set is listed with the empty word
  have hne : items[j].1 ≠ [] := by
    intro hnil
    have hbefore := List.pairwise_iff_getElem.1 hl.ascending 0 j hl.length_pos hj hpos
    rw [hl.getElem_zero, hnil] at hbefore
    exact Earlier.irrefl _ hbefore
  have hword := hl.word _ (List.getElem_mem hj)
  have hset := hl.reads _ (List.getElem_mem hj)
  obtain ⟨w, hw⟩ := hl.inhabited _ (List.getElem_mem hj)
  obtain ⟨word, l, heq⟩ : ∃ word l, items[j].1 = word ++ [l] :=
    ⟨_, _, (List.dropLast_append_getLast hne).symm⟩
  rw [heq, List.forall_mem_append, List.forall_mem_singleton] at hword
  rw [heq, ends_append] at hset
  rw [hset] at hw
  obtain ⟨u, hu, _⟩ := mem_closure_iff.1 hw
  obtain ⟨v, hv, _⟩ := mem_targets.1 hu
  obtain ⟨i, hi, hi_set, _⟩ := hl.exists_index ha hword.1 ⟨v, hv⟩
  refine ⟨i, hi, l, hword.2, ?_⟩
  rw [subsetAfter?_eq_some_iff, hi_set, hset]
  exact ⟨rfl, w, hw⟩

end Listing

end Graph

end PatternAutomata
