/-
How many edges are noted at a state.

A state counts the edges into it, and the check compares that number with the edges out of
all states of the automaton. Here the number is tied to what is noted at the state itself:
the entries of a table, written as pairs, hold nothing twice, so noting a state under a
label adds one pair or none, and striking it out takes one away or none. States outside of
the automaton may be noted as well, so the pairs with its own states are what is counted.
-/
import Mathlib.Data.List.Nodup
import Mathlib.Tactic.Tauto
import PatternAutomata.Automaton.WellFormed

set_option autoImplicit false

namespace PatternAutomata

namespace Table

/-! ## The pairs of a table -/

/-- The entries of a table have different labels, since its keys ascend strictly. -/
theorem pairwise_label_ne (t : Table) : t.entries.Pairwise fun d e => d.1 ≠ e.1 := by
  apply t.ascending.imp
  intro d e hlt heq
  rw [heq] at hlt
  have hself : compare e.1 e.1 = .eq := Std.ReflCmp.compare_self
  rw [hself] at hlt
  nomatch hlt

/-- No pair of a table is there twice: two entries differ in their label, and in one entry no state
is noted twice. -/
theorem nodup_pairs (t : Table) : t.pairs.Nodup := by
  unfold pairs
  apply List.nodup_flatMap.2
  constructor
  · rintro ⟨l, vs⟩ _
    have hvs : vs.toList.Nodup := vs.nodup_toList
    exact hvs.map fun v w h => (Prod.mk.inj h).2
  · apply t.pairwise_label_ne.imp
    rintro ⟨k, vs⟩ ⟨l, ws⟩ hne ⟨j, u⟩ hj hj'
    obtain ⟨v, _, hv⟩ := List.mem_map.1 hj
    obtain ⟨w, _, hw⟩ := List.mem_map.1 hj'
    exact hne ((Prod.mk.inj hv).1.trans (Prod.mk.inj hw).1.symm)

/-- The pairs of a table with states of a set. -/
def pairsFrom (t : Table) (S : VertexSet) : List (Label × Vertex) :=
  t.pairs.filter fun p => decide (p.2 ∈ S)

/-- Which pairs are counted: those that are noted, as far as their states belong to the set. -/
theorem mem_pairsFrom {t : Table} {S : VertexSet} {l : Label} {v : Vertex} :
    (l, v) ∈ t.pairsFrom S ↔ v ∈ S ∧ v ∈ t.under l := by
  rw [pairsFrom, List.mem_filter, mem_pairs, decide_eq_true_eq, and_comm]

theorem nodup_pairsFrom (t : Table) (S : VertexSet) : (t.pairsFrom S).Nodup :=
  t.nodup_pairs.filter _

/-- Only the states that are noted matter, so sets that agree on these count the same. -/
theorem pairsFrom_congr {t : Table} {S T : VertexSet}
    (h : ∀ l, ∀ v ∈ t.under l, v ∈ S ↔ v ∈ T) : t.pairsFrom S = t.pairsFrom T := by
  apply List.filter_congr
  rintro ⟨l, v⟩ hmem
  exact decide_eq_decide.2 (h l v (mem_pairs.1 hmem))

/-- Where all that is noted comes from the set, all pairs are counted. -/
theorem pairsFrom_eq_pairs {t : Table} {S : VertexSet} (h : ∀ l, ∀ v ∈ t.under l, v ∈ S) :
    t.pairsFrom S = t.pairs := by
  apply List.filter_eq_self.2
  rintro ⟨l, v⟩ hmem
  exact decide_eq_true (h l v (mem_pairs.1 hmem))

/-- Noting a state of the set that is not there yet adds one pair. The pairs before and after, with
the new one put first, are permutations of each other. -/
theorem length_pairsFrom_note {t : Table} {S : VertexSet} {l : Label} {v : Vertex}
    (h : v ∉ t.under l) (hv : v ∈ S) :
    ((t.note l v).pairsFrom S).length = (t.pairsFrom S).length + 1 := by
  have hnew : (l, v) ∉ t.pairs := fun hmem => h (mem_pairs.1 hmem)
  have hperm : (t.note l v).pairs.Perm ((l, v) :: t.pairs) := by
    apply (List.perm_ext_iff_of_nodup (nodup_pairs _) (List.nodup_cons.2 ⟨hnew, t.nodup_pairs⟩)).2
    rintro ⟨k, w⟩
    rw [mem_pairs, under_note, List.mem_cons, mem_pairs, Prod.mk.injEq]
    by_cases hk : k = l
    · rw [if_pos hk, hk, OrdSet.mem_insert]
      tauto
    · rw [if_neg hk]
      tauto
  have hkept : (((l, v) :: t.pairs).filter fun p => decide (p.2 ∈ S)) = (l, v) :: t.pairsFrom S :=
    List.filter_cons_of_pos (decide_eq_true hv)
  rw [pairsFrom, (hperm.filter _).length_eq, hkept, List.length_cons]

/-- Noting a state that is there already changes nothing, not even the way in which the table is
stored. -/
theorem note_eq_self {t : Table} {l : Label} {v : Vertex} (h : v ∈ t.under l) :
    t.note l v = t := by
  apply OrdMap.ext_get?
  intro k
  rw [note, OrdMap.get?_insert]
  split
  · next hk =>
    have hsame : (t.under l).insert v = t.under l := by
      ext w
      rw [OrdSet.mem_insert]
      constructor
      · rintro (rfl | hw)
        · exact h
        · exact hw
      · exact Or.inr
    rw [hsame, hk, under]
    rw [under] at h
    cases hget : t.get? l with
    | none =>
      rw [hget] at h
      exact absurd h (OrdSet.not_mem_empty v)
    | some vs => rfl
  · rfl

/-- Striking out a state takes one pair away, also if the entry goes with it. -/
theorem length_pairs_strike {t : Table} {l : Label} {v : Vertex} (h : v ∈ t.under l) :
    (t.strike l v).pairs.length + 1 = t.pairs.length := by
  have hgone : (l, v) ∉ (t.strike l v).pairs := by
    rw [mem_pairs, under_strike, if_pos rfl, OrdSet.mem_erase]
    exact fun hmem => hmem.2 rfl
  -- neither list of pairs repeats one, so equal members make them permutations
  have hperm : t.pairs.Perm ((l, v) :: (t.strike l v).pairs) := by
    apply (List.perm_ext_iff_of_nodup t.nodup_pairs
      (List.nodup_cons.2 ⟨hgone, nodup_pairs _⟩)).2
    rintro ⟨k, w⟩
    rw [mem_pairs, List.mem_cons, mem_pairs, under_strike, Prod.mk.injEq]
    by_cases hk : k = l
    · rw [if_pos hk, hk, OrdSet.mem_erase]
      by_cases hw : w = v
      · rw [hw]
        tauto
      · tauto
    · rw [if_neg hk]
      tauto
  rw [hperm.length_eq, List.length_cons]

/-! ## Entries without states -/

/-- What is noted under a label has an entry. -/
theorem contains_of_mem_under {t : Table} {l : Label} {v : Vertex} (h : v ∈ t.under l) :
    t.contains l = true := by
  rw [OrdMap.contains]
  rw [under] at h
  cases hget : t.get? l with
  | none =>
    rw [hget] at h
    exact absurd h (OrdSet.not_mem_empty v)
  | some vs => rfl

/-- A table in which nothing is noted, without empty entries, has no entries. With it, states
without edges are recognised by their tables. -/
theorem eq_empty {t : Table} (hentry : ∀ l, t.get? l ≠ some ∅) (hnone : ∀ l, t.under l = ∅) :
    t = ∅ := by
  apply OrdMap.ext_get?
  intro l
  have hunder := hnone l
  rw [under] at hunder
  cases hget : t.get? l with
  | none => rfl
  | some vs =>
    rw [hget, Option.getD_some] at hunder
    exact absurd (hget.trans (congrArg some hunder)) (hentry l)

/-- Noting a state leaves no entry empty. -/
theorem note_ne_empty {t : Table} {l k : Label} {v : Vertex} (h : t.get? k ≠ some ∅) :
    (t.note l v).get? k ≠ some ∅ := by
  rw [note, OrdMap.get?_insert]
  by_cases hk : k = l
  · rw [if_pos hk]
    intro he
    have hmem : v ∈ (t.under l).insert v := OrdSet.mem_insert.2 (Or.inl rfl)
    rw [Option.some.inj he] at hmem
    exact OrdSet.not_mem_empty v hmem
  · rwa [if_neg hk]

/-- Striking out a state leaves no entry empty, because an entry that would be empty is taken
out. -/
theorem strike_ne_empty {t : Table} {l k : Label} {v : Vertex} (h : t.get? k ≠ some ∅) :
    (t.strike l v).get? k ≠ some ∅ := by
  unfold strike
  dsimp only
  split
  · rw [OrdMap.get?_erase]
    by_cases hk : k = l
    · rw [if_pos hk]
      exact (Option.some_ne_none ∅).symm
    · rwa [if_neg hk]
  · next hrest =>
    rw [OrdMap.get?_insert]
    by_cases hk : k = l
    · rw [if_pos hk]
      intro he
      exact hrest (OrdSet.isEmpty_iff_eq.2 (Option.some.inj he))
    · rwa [if_neg hk]

end Table

/-! ## Incoming edges -/

namespace Automaton

/-- A sum over a list is the length of the lists that are summed up, put together. -/
theorem foldl_length_flatMap {α β : Type} (f : α → List β) (l : List α) (n : Nat) :
    l.foldl (fun n a => n + (f a).length) n = n + (l.flatMap f).length := by
  induction l generalizing n with
  | nil => rfl
  | cons a l ih =>
    rw [List.foldl_cons, ih, List.flatMap_cons, List.length_append]
    omega

/-- The edges from a state into another one, written as the pairs that are noted for them. The
incoming edges of a state are counted entry by entry, and this is what is counted. -/
def pairsInto (g : Graph) (v u : Vertex) : List (Label × Vertex) :=
  ((g.node u).next.entries.filter fun e => decide (v ∈ e.2)).map fun e => (e.1, u)

/-- A pair is among them if it shows the state itself and the label of an edge from there. -/
theorem mem_pairsInto {g : Graph} {v u w : Vertex} {l : Label} :
    (l, w) ∈ pairsInto g v u ↔ w = u ∧ v ∈ g.destinations u l := by
  rw [pairsInto, List.mem_map]
  constructor
  · rintro ⟨⟨k, vs⟩, hmem, heq⟩
    obtain ⟨rfl, rfl⟩ := Prod.mk.inj heq
    obtain ⟨hentry, hv⟩ := List.mem_filter.1 hmem
    refine ⟨rfl, ?_⟩
    rw [Graph.destinations, Table.under, OrdMap.mem_entries_iff.1 hentry]
    exact of_decide_eq_true hv
  · rintro ⟨rfl, hv⟩
    rw [Graph.destinations, Table.under] at hv
    cases hget : (g.node w).next.get? l with
    | none =>
      rw [hget] at hv
      exact absurd hv (OrdSet.not_mem_empty v)
    | some vs =>
      rw [hget] at hv
      refine ⟨(l, vs), List.mem_filter.2 ⟨OrdMap.mem_entries_iff.2 hget, ?_⟩, rfl⟩
      exact decide_eq_true hv

/-- The pairs of different states differ in the state, those of one state in the label, because no
label has two entries. -/
theorem nodup_flatMap_pairsInto (g : Graph) (a : Automaton) (v : Vertex) :
    (a.states.toList.flatMap (pairsInto g v)).Nodup := by
  apply List.nodup_flatMap.2
  constructor
  · intro u _
    have hlabels := (Table.pairwise_label_ne (g.node u).next).filter fun e => decide (v ∈ e.2)
    rw [pairsInto, List.Nodup, List.pairwise_map]
    exact hlabels.imp fun hne heq => hne (Prod.mk.inj heq).1
  · apply (a.states.nodup_toList).imp
    rintro u w hne ⟨l, x⟩ hu hw
    exact hne ((mem_pairsInto.1 hu).1.symm.trans (mem_pairsInto.1 hw).1)

/-- The count that the check makes is of the pairs of all states of the automaton. -/
theorem incoming_eq_length_flatMap (g : Graph) (a : Automaton) (v : Vertex) :
    a.incoming g v = (a.states.toList.flatMap (pairsInto g v)).length := by
  have hcount : ∀ u, (g.node u).next.entries.countP (fun e => decide (v ∈ e.2)) =
      (pairsInto g v u).length := by
    intro u
    rw [pairsInto, List.length_map, List.countP_eq_length_filter]
  simp only [incoming, hcount]
  rw [foldl_length_flatMap]
  omega

/-- If the states of the automaton are noted at a state just for their edges into it, their
number is that of the incoming edges. The two lists of pairs, one read off the sources and one off
the state itself, hold the same pairs, neither holds one twice, and so they are equally long. -/
theorem incoming_eq_length_pairsFrom {g : Graph} {a : Automaton} {v : Vertex}
    (h : ∀ l, ∀ u ∈ a.states, u ∈ g.origins v l ↔ v ∈ g.destinations u l) :
    a.incoming g v = ((g.node v).previous.pairsFrom a.states).length := by
  have hperm : (a.states.toList.flatMap (pairsInto g v)).Perm
      ((g.node v).previous.pairsFrom a.states) := by
    apply (List.perm_ext_iff_of_nodup (nodup_flatMap_pairsInto g a v) (Table.nodup_pairsFrom _ _)).2
    rintro ⟨l, u⟩
    rw [List.mem_flatMap, Table.mem_pairsFrom]
    constructor
    · rintro ⟨w, hw, hmem⟩
      obtain ⟨rfl, hv⟩ := mem_pairsInto.1 hmem
      exact ⟨hw, (h l u hw).2 hv⟩
    · rintro ⟨hu, hnote⟩
      exact ⟨u, hu, mem_pairsInto.2 ⟨rfl, (h l u hu).1 hnote⟩⟩
  rw [incoming_eq_length_flatMap, hperm.length_eq]

end Automaton

end PatternAutomata
