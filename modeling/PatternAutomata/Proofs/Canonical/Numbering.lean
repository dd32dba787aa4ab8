/-
Deterministic automata and their numbering by words.

A word is earlier than another one if it is shorter, or if the two are equally long and the
first symbol in which they differ is smaller in it (`Earlier`). In a deterministic automaton
a word has at most one path, so what is accepted from a state is what may follow any word
that leads there (`Path.languageFrom_eq`).

An automaton is numbered by some words if these are listed from the earliest on, and the
state with the number of a word is reached by it and by no earlier word (`Numbered`). If it is
deterministic, its words and edges are fixed by which words lead to one state
(`Numbered.words_eq`, `Numbered.mem_destinations_iff`).
-/
import Mathlib.Computability.MyhillNerode
import Mathlib.Data.List.Shortlex
import PatternAutomata.Proofs.Structure.Sound
import PatternAutomata.Proofs.Words.Simulation

set_option autoImplicit false

namespace PatternAutomata

open Std

/-! ## The order of words

The order is a strict total one. It is kept when words of one length are read on. -/

/-- Shorter words come first, and words of one length in the order of their symbols. -/
def Earlier (x y : List Label) : Prop := List.Shortlex (fun l k => compare l k = .lt) x y

namespace Earlier

variable {x y z : List Label}

/-- A word is earlier if it is shorter, or equally long and smaller at the first difference. -/
theorem iff : Earlier x y ↔ x.length < y.length ∨
    x.length = y.length ∧ List.Lex (fun l k : Label => compare l k = .lt) x y :=
  List.shortlex_def

/-- Shorter words are earlier. -/
theorem of_length_lt (h : x.length < y.length) : Earlier x y := iff.2 (Or.inl h)

/-- The order is transitive. -/
theorem trans (hxy : Earlier x y) (hyz : Earlier y z) : Earlier x z := by
  rw [iff] at *
  rcases hxy with hxy | ⟨hxy, hlex⟩
  · left
    omega
  · rcases hyz with hyz | ⟨hyz, hlex'⟩
    · left
      omega
    · right
      exact ⟨hxy.trans hyz, List.lex_trans TransCmp.lt_trans hlex hlex'⟩

/-- No word is earlier than itself. -/
theorem irrefl (x : List Label) : ¬Earlier x x := by
  rw [iff]
  rintro (h | ⟨_, h⟩)
  · exact absurd h (Nat.lt_irrefl _)
  · exact List.lex_irrefl (fun l hl => OrdSet.compare_asymm hl hl) x h

/-- No two words are earlier than each other. -/
theorem asymm (hxy : Earlier x y) (hyx : Earlier y x) : False := irrefl x (hxy.trans hyx)

/-- Different words are in order one way or the other. Words of different lengths are by their
lengths. -/
theorem total (x y : List Label) : Earlier x y ∨ x = y ∨ Earlier y x := by
  have hlex : x.length = y.length → List.Lex (fun l k : Label => compare l k = .lt) x y ∨
      x = y ∨ List.Lex (fun l k : Label => compare l k = .lt) y x := by
    intro hlen
    -- equally long words are compared at the first place where they differ
    induction x generalizing y with
    | nil =>
      right
      left
      exact (List.length_eq_zero_iff.1 hlen.symm).symm
    | cons l x ih =>
      obtain _ | ⟨k, y⟩ := y
      · nomatch hlen
      · cases hc : compare l k with
        | lt => exact Or.inl (.rel hc)
        | gt => exact Or.inr (Or.inr (.rel (OrientedCmp.gt_iff_lt.1 hc)))
        | eq =>
          rw [LawfulEqCmp.eq_of_compare hc]
          rcases ih y (Nat.succ.inj hlen) with h | rfl | h
          · exact Or.inl (.cons h)
          · exact Or.inr (Or.inl rfl)
          · exact Or.inr (Or.inr (.cons h))
  rw [iff, iff]
  rcases Nat.lt_trichotomy x.length y.length with h | h | h
  · exact Or.inl (Or.inl h)
  · rcases hlex h with h' | h' | h'
    · exact Or.inl (Or.inr ⟨h, h'⟩)
    · exact Or.inr (Or.inl h')
    · exact Or.inr (Or.inr (Or.inr ⟨h.symm, h'⟩))
  · exact Or.inr (Or.inr (Or.inl h))

/-- What follows words of one length does not change their order. -/
theorem append (h : Earlier x y) (hlen : x.length = y.length) {l k : Label} :
    Earlier (x ++ [l]) (y ++ [k]) := by
  have hlex : List.Lex (fun l k : Label => compare l k = .lt) x y := by
    rcases iff.1 h with h | ⟨_, h⟩
    · omega
    · exact h
  refine iff.2 (Or.inr ⟨by simp [hlen], ?_⟩)
  clear h
  induction x generalizing y with
  | nil =>
    rw [List.length_eq_zero_iff.1 hlen.symm] at hlex
    nomatch hlex
  | cons i x ih =>
    cases hlex with
    | rel hij => exact .rel hij
    | cons hlex => exact .cons (ih (Nat.succ.inj hlen) hlex)

/-- One symbol after a word decides by its own order. -/
theorem append_symbol (x : List Label) {l k : Label} (h : compare l k = .lt) :
    Earlier (x ++ [l]) (x ++ [k]) :=
  List.Shortlex.append_left ((List.shortlex_singleton_iff l k).2 h) x

/-- A word that is not later stays so before the same symbol. -/
theorem not_append (h : ¬Earlier x y) (l : Label) : ¬Earlier (x ++ [l]) (y ++ [l]) := by
  rcases total x y with hxy | rfl | hyx
  · exact absurd hxy h
  · exact irrefl _
  · intro hxy
    apply asymm hxy
    by_cases hlen : y.length = x.length
    · exact hyx.append hlen
    · apply of_length_lt
      rw [iff] at hyx
      simp only [List.length_append, List.length_singleton]
      omega

/-- That words are not later can be chained, because the order is total. -/
theorem not_trans (hxy : ¬Earlier y x) (hyz : ¬Earlier z y) : ¬Earlier z x := by
  intro hzx
  rcases total y z with h | rfl | h
  · exact hxy (h.trans hzx)
  · exact hxy hzx
  · exact hyz h

end Earlier

/-! ## Determinism

In a deterministic set of states a path is fixed by its start and by the word that it spells. -/

namespace Graph

variable {g : Graph}

/-- A path that spells two words one after the other passes a state between them. Silent edges
between the two words may be counted to either part. -/
theorem Path.split {v u : Vertex} {x y : List Label} (h : Path g v (x ++ y) u) :
    ∃ w, Path g v x w ∧ Path g w y u := by
  induction x generalizing v with
  | nil => exact ⟨v, .stay v, h⟩
  | cons l x ih =>
    obtain ⟨hl, a, b, ha, hb, hu⟩ := Path.cons_iff.1 h
    obtain ⟨w, hw, hwu⟩ := ih hu
    exact ⟨w, Path.cons_iff.2 ⟨hl, a, b, ha, hb, hw⟩, hwu⟩

/-- No edge out of some states reads nothing, and each symbol leads to one state at most. -/
structure Deterministic (g : Graph) (S : VertexSet) : Prop where
  silent : ∀ v ∈ S, g.destinations v .epsilon = ∅
  unique : ∀ v ∈ S, ∀ l, ∀ w ∈ g.destinations v l, ∀ u ∈ g.destinations v l, w = u

/-- Other edges do not matter, and neither do states outside the set. -/
theorem Deterministic.congr {h : Graph} {S T : VertexSet} (hd : g.Deterministic S)
    (hsub : ∀ v ∈ T, v ∈ S) (heq : ∀ v ∈ T, ∀ l, h.destinations v l = g.destinations v l) :
    h.Deterministic T where
  silent v hv := by
    rw [heq v hv]
    exact hd.silent v (hsub v hv)
  unique v hv l := by
    rw [heq v hv]
    exact hd.unique v (hsub v hv) l

/-- An edge out of such states reads a symbol. -/
theorem Deterministic.ne_epsilon {S : VertexSet} (hd : g.Deterministic S) {v w : Vertex} {l : Label}
    (hv : v ∈ S) (hw : w ∈ g.destinations v l) : l ≠ .epsilon := by
  rintro rfl
  rw [hd.silent v hv] at hw
  exact OrdSet.not_mem_empty w hw

/-- Without silent edges the empty word leads nowhere else. -/
theorem Deterministic.path_nil {S : VertexSet} (hd : g.Deterministic S) {v w : Vertex} (hv : v ∈ S)
    (h : Path g v [] w) : w = v := by
  cases h with
  | stay => rfl
  | silent first _ => exact absurd rfl (hd.ne_epsilon hv first)

/-- Without silent edges the first symbol of a word is read along the first edge. -/
theorem Deterministic.path_cons_iff {S : VertexSet} (hd : g.Deterministic S) {v w : Vertex}
    {l : Label} {word : List Label} (hv : v ∈ S) : Path g v (l :: word) w ↔
      l ≠ .epsilon ∧ ∃ u ∈ g.destinations v l, Path g u word w := by
  constructor
  · intro h
    obtain ⟨hl, x, u, hx, hu, hw⟩ := Path.cons_iff.1 h
    rw [hd.path_nil hv hx] at hu
    exact ⟨hl, u, hu, hw⟩
  · rintro ⟨hl, u, hu, hw⟩
    exact .read hl hu hw

/-- From a deterministic set that no edge leaves, a word leads to one state at most. -/
theorem Deterministic.path_unique {S : VertexSet} (hd : g.Deterministic S)
    (hclosed : ∀ v ∈ S, ∀ l, ∀ w ∈ g.destinations v l, w ∈ S) {v w u : Vertex}
    {word : List Label} (hv : v ∈ S) (hw : Path g v word w) (hu : Path g v word u) : w = u := by
  induction word generalizing v with
  | nil => rw [hd.path_nil hv hw, hd.path_nil hv hu]
  | cons l word ih =>
    obtain ⟨_, x, hx, hxw⟩ := (hd.path_cons_iff hv).1 hw
    obtain ⟨_, y, hy, hyu⟩ := (hd.path_cons_iff hv).1 hu
    rw [hd.unique v hv l y hy x hx] at hyu
    exact ih (hclosed v hv l x hx) hxw hyu

/-- Without silent edges a state leads to itself alone before anything is read. So the closures that
are formed in reading change nothing. -/
theorem Deterministic.closure_singleton {S : VertexSet} (hd : g.Deterministic S) {v : Vertex}
    (hv : v ∈ S) : g.closure {v} = {v} := by
  apply OrdSet.eq_singleton (mem_closure_of_mem (OrdSet.mem_singleton.2 rfl))
  intro w hw
  obtain ⟨u, hu, hpath⟩ := mem_closure_iff.1 hw
  rw [OrdSet.mem_singleton.1 hu] at hpath
  exact hd.path_nil hv hpath

/-- In a deterministic set that no edge leaves, a symbol leads from one state where its edges
lead, and no further. -/
theorem Deterministic.closure_targets {S : VertexSet} (hd : g.Deterministic S)
    (hclosed : ∀ v ∈ S, ∀ l, ∀ w ∈ g.destinations v l, w ∈ S) {v : Vertex} (hv : v ∈ S)
    (l : Label) : g.closure (g.targets {v} l) = g.destinations v l := by
  ext w
  rw [mem_closure_iff]
  constructor
  · rintro ⟨u, hu, hpath⟩
    obtain ⟨x, hx, hxu⟩ := mem_targets.1 hu
    rw [OrdSet.mem_singleton.1 hx] at hxu
    rwa [hd.path_nil (hclosed v hv l u hxu) hpath]
  · intro hw
    exact ⟨w, mem_targets.2 ⟨v, OrdSet.mem_singleton.2 rfl, hw⟩, .stay w⟩

/-- Both words lead from a state to one and the same state. -/
def Meet (g : Graph) (v : Vertex) (x y : List Label) : Prop := ∃ w, Path g v x w ∧ Path g v y w

/-- Without silent edges the empty word is accepted at accepting states only. -/
theorem Deterministic.nil_mem_iff {S : VertexSet} (hd : g.Deterministic S) {v : Vertex}
    (hv : v ∈ S) : [] ∈ g.languageFrom v ↔ (g.node v).isAccepting = true := by
  constructor
  · rintro ⟨w, hw, hacc⟩
    rwa [hd.path_nil hv hw] at hacc
  · exact nil_mem_languageFrom

end Graph

namespace Automaton

open PatternAutomata.Graph

variable {g : Graph} {a : Automaton}

/-- An automaton that passes the check is deterministic exactly if it is found to be so. What is
looked at are the entries of the tables: no entry is under the silent label, and none has more than
one target. An empty entry under the silent label would be found as well, but the check excludes
it. -/
theorem WellFormed.isDeterministic_iff (ha : a.WellFormed g) :
    a.isDeterministic g = true ↔ g.Deterministic a.states := by
  -- from the entries to the edges
  constructor
  · intro hcheck
    have hentry : ∀ v ∈ a.states, ∀ l, ∀ w ∈ g.destinations v l,
        l ≠ .epsilon ∧ (g.destinations v l).size ≤ 1 := by
      intro v hv l w hw
      obtain ⟨vs, hget, hunder⟩ : ∃ vs, (g.node v).next.get? l = some vs ∧
          g.destinations v l = vs := by
        rw [destinations, Table.under] at hw ⊢
        cases hget : (g.node v).next.get? l with
        | none =>
          rw [hget] at hw
          exact absurd hw (OrdSet.not_mem_empty w)
        | some vs => exact ⟨vs, rfl, rfl⟩
      have hall := List.all_eq_true.1 (List.all_eq_true.1 hcheck v hv) (l, vs)
        (OrdMap.mem_entries_iff.2 hget)
      rw [Bool.and_eq_true, decide_eq_true_eq, decide_eq_true_eq] at hall
      rwa [hunder]
    constructor
    · intro v hv
      exact OrdSet.eq_empty_iff.2 fun w hw => (hentry v hv .epsilon w hw).1 rfl
    · intro v hv l w hw u hu
      obtain ⟨_, hsize⟩ := hentry v hv l w hw
      exact OrdSet.size_le_one_iff.1 hsize w hw u hu
  -- and from the edges to the entries
  · intro hd
    refine List.all_eq_true.2 fun v hv => List.all_eq_true.2 fun e he => ?_
    obtain ⟨l, vs⟩ := e
    have hget := OrdMap.mem_entries_iff.1 he
    have hunder : g.destinations v l = vs := by
      rw [destinations, Table.under, hget, Option.getD_some]
    have hl : l ≠ .epsilon := by
      rintro rfl
      rw [hd.silent v hv] at hunder
      rw [← hunder] at hget
      exact ha.next_ne_empty v hv _ hget
    have hsize : vs.size ≤ 1 := by
      rw [← hunder]
      exact OrdSet.size_le_one_iff.2 (hd.unique v hv l)
    rw [Bool.and_eq_true]
    exact ⟨decide_eq_true hl, decide_eq_true hsize⟩

/-- A sound automaton passes the check, so it is found to be deterministic. -/
theorem Sound.isDeterministic (ha : a.Sound g) (hd : g.Deterministic a.states) :
    a.isDeterministic g = true :=
  ha.wellFormed.isDeterministic_iff.2 hd

/-- A path does not leave the automaton. -/
theorem Sound.path_mem (ha : a.Sound g) {v w : Vertex} {word : List Label}
    (h : Path g v word w) (hv : v ∈ a.states) : w ∈ a.states :=
  h.preserves (p := (· ∈ a.states)) hv fun _ hu _ _ hw => ha.target_mem hu hw

/-- In a deterministic automaton, the last symbol of a word is read along one edge, with nothing
silent after it. -/
theorem Sound.path_append_iff (ha : a.Sound g) (hd : g.Deterministic a.states) {v w : Vertex}
    {word : List Label} {l : Label} (hv : v ∈ a.states) : Path g v (word ++ [l]) w ↔
      ∃ u, Path g v word u ∧ l ≠ .epsilon ∧ w ∈ g.destinations u l := by
  constructor
  · intro h
    obtain ⟨u, hu, hlast⟩ := h.split
    obtain ⟨hl, x, hx, hw⟩ := (hd.path_cons_iff (ha.path_mem hu hv)).1 hlast
    rw [hd.path_nil (ha.target_mem (ha.path_mem hu hv) hx) hw]
    exact ⟨u, hu, hl, hx⟩
  · rintro ⟨u, hu, hl, hw⟩
    exact hu.trans (.step hl hw)

/-- In a deterministic automaton a word leads to one state at most. -/
theorem Sound.path_unique (ha : a.Sound g) (hd : g.Deterministic a.states) {v w u : Vertex}
    {word : List Label} (hv : v ∈ a.states) (hw : Path g v word w) (hu : Path g v word u) :
    w = u :=
  hd.path_unique (fun _ hv _ _ hw => ha.target_mem hv hw) hv hw hu

/-- In a deterministic automaton, what is accepted after a word is what may follow it: the word
leads to one state only, so whatever follows goes on from there. -/
theorem Sound.languageFrom_eq (ha : a.Sound g) (hd : g.Deterministic a.states)
    {v w : Vertex} {word : List Label} (hv : v ∈ a.states) (h : Path g v word w) :
    g.languageFrom w = (g.languageFrom v).leftQuotient word := by
  ext rest
  rw [Language.mem_leftQuotient]
  constructor
  · exact fun hrest => append_mem_languageFrom h hrest
  · rintro ⟨u, hu, hacc⟩
    obtain ⟨w', hw', hrest⟩ := hu.split
    rw [ha.path_unique hd hv h hw']
    exact ⟨u, hrest, hacc⟩

/-! ## States in a row

A row is given by its first place and its length. The lemmas are used for states made of sets, for
states made of blocks and for fragments. -/

section Rows

variable {S : VertexSet} {first n : Nat} (hS : ∀ v : Nat, v ∈ S ↔ first ≤ v ∧ v < first + n)
include hS

/-- Each state of a row has a place in it. -/
theorem exists_place_row {v : Nat} (hv : v ∈ S) : ∃ i, i < n ∧ v = first + i := by
  obtain ⟨hle, hlt⟩ := (hS v).1 hv
  exact ⟨v - first, by omega, by omega⟩

/-- States that lie in a row are listed by place, as sets of places are listed in ascending
order. -/
theorem toList_row : S.toList = (List.range n).map (first + ·) := by
  apply OrdSet.eq_of_ascending (r := fun v w : Nat => compare v w = .lt) OrdSet.compare_asymm
  · exact S.ascending
  · rw [List.pairwise_map]
    refine List.pairwise_lt_range.imp fun {i j} hij => ?_
    rw [Nat.compare_eq_lt]
    omega
  · intro v
    rw [OrdSet.mem_toList, List.mem_map]
    constructor
    · intro hv
      obtain ⟨i, hi, rfl⟩ := exists_place_row hS hv
      exact ⟨i, List.mem_range.2 hi, rfl⟩
    · rintro ⟨i, hi, rfl⟩
      have hlt := List.mem_range.1 hi
      exact (hS _).2 ⟨by omega, by omega⟩

/-- A row has as many states as places. -/
theorem size_row : S.size = n := by
  rw [OrdSet.size, toList_row hS, List.length_map, List.length_range]

variable {g : Graph} {least : Int} (hid : ∀ i < n, (g.node (first + i)).id = least + i)
include hid

/-- Where identifiers go up along the row, they order the states as they lie. -/
theorem inOrder_row : g.inOrder S = (List.range n).map (first + ·) := by
  rw [inOrder, toList_row hS, sortById]
  apply List.mergeSort_of_pairwise
  rw [List.pairwise_map]
  refine List.pairwise_lt_range.imp_of_mem fun {i j} hi hj hij => ?_
  rw [decide_eq_true_eq, hid i (List.mem_range.1 hi), hid j (List.mem_range.1 hj)]
  omega

/-- The identifiers of a row are consecutive numbers. -/
theorem ids_row : g.ids S = (List.range n).map fun i : Nat => least + i := by
  rw [ids, inOrder_row hS hid, List.map_map]
  exact List.map_congr_left fun i hi => hid i (List.mem_range.1 hi)

end Rows

/-! ## Numbered automata -/

/-- The states of an automaton are numbered by words: they lie in a row from a first place on,
and each is reached by its word and by none that is earlier. -/
structure Numbered (g : Graph) (a : Automaton) (first : Nat) (words : List (List Label)) :
    Prop where
  start_eq : a.start = first
  mem_states : ∀ v : Nat, v ∈ a.states ↔ first ≤ v ∧ v < first + words.length
  id_eq : ∀ i < words.length, (g.node (first + i)).id = i
  ascending : words.Pairwise Earlier
  path : ∀ i (h : i < words.length), Path g first words[i] (first + i)
  least : ∀ i (h : i < words.length), ∀ word, Path g first word (first + i) →
    ¬Earlier word words[i]

namespace Numbered

variable {first : Nat} {words : List (List Label)}

/-- Each state has a number. -/
theorem exists_number (hn : a.Numbered g first words) {v : Nat} (hv : v ∈ a.states) :
    ∃ i, i < words.length ∧ v = first + i :=
  exists_place_row hn.mem_states hv

/-- Each number has a state. -/
theorem mem_number (hn : a.Numbered g first words) {i : Nat} (hi : i < words.length) :
    first + i ∈ a.states :=
  (hn.mem_states _).2 ⟨by omega, by omega⟩

/-- The order of identifiers is the order of numbers. -/
theorem inOrder_states (hn : a.Numbered g first words) :
    g.inOrder a.states = (List.range words.length).map (first + ·) :=
  inOrder_row hn.mem_states fun i hi => (hn.id_eq i hi).trans (Int.zero_add _).symm

/-! ## What fixes the numbers -/

/-- The first place is that of the start state. -/
theorem start_mem (hn : a.Numbered g first words) (ha : a.Sound g) : first ∈ a.states := by
  rw [← hn.start_eq]
  exact ha.start_mem

/-- The word of a state meets the words that lead there. -/
theorem meet_word_iff (hn : a.Numbered g first words) (ha : a.Sound g)
    (hd : g.Deterministic a.states) {i : Nat} (hi : i < words.length) {word : List Label} :
    g.Meet first word words[i] ↔ Path g first word (first + i) := by
  constructor
  · rintro ⟨w, hw, hw'⟩
    rwa [ha.path_unique hd (hn.start_mem ha) hw' (hn.path i hi)] at hw
  · exact fun hpath => ⟨_, hpath, hn.path i hi⟩

/-- The words of the states are those that lead anywhere, and are the earliest that lead there. This
says which words they are without mentioning places. -/
theorem mem_words_iff (hn : a.Numbered g first words) (ha : a.Sound g)
    (hd : g.Deterministic a.states) {word : List Label} : word ∈ words ↔
      g.Meet first word word ∧ ∀ other, g.Meet first other word → ¬Earlier other word := by
  constructor
  · intro hword
    obtain ⟨i, hi, rfl⟩ := List.getElem_of_mem hword
    simp only [hn.meet_word_iff ha hd hi]
    exact ⟨hn.path i hi, hn.least i hi⟩
  · rintro ⟨⟨v, hv, _⟩, hleast⟩
    obtain ⟨i, hi, rfl⟩ := hn.exists_number (ha.path_mem hv (hn.start_mem ha))
    -- neither the word nor that of the state is earlier than the other one
    rcases Earlier.total words[i] word with hlt | heq | hlt
    · exact absurd hlt (hleast _ ⟨_, hn.path i hi, hv⟩)
    · exact heq ▸ List.getElem_mem hi
    · exact absurd hlt (hn.least i hi word hv)

/-- The words of the states are fixed by which words meet. They are listed in order, so it is enough
that the two lists have the same members. -/
theorem words_eq (hn : a.Numbered g first words) (ha : a.Sound g) (hd : g.Deterministic a.states)
    {h : Graph} {b : Automaton} {first' : Nat} {words' : List (List Label)}
    (hn' : b.Numbered h first' words') (hb : b.Sound h) (hd' : h.Deterministic b.states)
    (hmeet : ∀ x y, g.Meet first x y ↔ h.Meet first' x y) : words = words' := by
  refine OrdSet.eq_of_ascending Earlier.asymm hn.ascending hn'.ascending fun word => ?_
  simp only [hn.mem_words_iff ha hd, hn'.mem_words_iff hb hd', hmeet]

/-- There is an edge between two states if the word of the first one, with the symbol, meets the
word of the second one. So the edges are fixed by which words meet, too. -/
theorem mem_destinations_iff (hn : a.Numbered g first words) (ha : a.Sound g)
    (hd : g.Deterministic a.states) {i j : Nat} (hi : i < words.length) (hj : j < words.length)
    {l : Label} : first + j ∈ g.destinations (first + i) l ↔
      l ≠ .epsilon ∧ g.Meet first (words[i] ++ [l]) words[j] := by
  have hpath := hn.path i hi
  rw [hn.meet_word_iff ha hd hj, ha.path_append_iff hd (hn.start_mem ha)]
  constructor
  · intro hedge
    have hl := hd.ne_epsilon (hn.mem_number hi) hedge
    exact ⟨hl, _, hpath, hl, hedge⟩
  · rintro ⟨_, u, hu, _, hedge⟩
    rwa [ha.path_unique hd (hn.start_mem ha) hu hpath] at hedge

end Numbered

end Automaton

end PatternAutomata
