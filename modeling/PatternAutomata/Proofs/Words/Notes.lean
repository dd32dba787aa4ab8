/-
What calls leave noted.

Whoever reads symbol by symbol may go on after a symbol was refused, since a refused call leaves
everything as it was. So calls in any order come to the same as reading the symbols that are not
refused (`Machine.called_eq`), and the positions that are noted count these only.

While the sets of current states have no state in common, each state is noted at the one position
where it is met. After that the interval is kept for good: it ends at the first position that meets
an earlier one, and begins where the least of the states met again was met before. A deterministic
automaton is in one state at a time, so if it is never nowhere, the interval ends by the position
that is the number of its states (`Edit.notes_exact`).
-/
import PatternAutomata.Proofs.Words.Tracking

set_option autoImplicit false

namespace PatternAutomata

open PatternAutomata.Graph

/-! ## States that are met -/

namespace Automaton.WellFormed

variable {m : Machine}

/-- Whatever is read leads to states of the automaton. The start state is one, and every edge of a
state leads to one, the edges that read nothing included. -/
theorem mem_states_of_mem_reached (hm : m.automaton.WellFormed m.graph) (word : List Label) :
    ∀ v ∈ m.reached word, v ∈ m.automaton.states := by
  have hclosure : ∀ vs : VertexSet, (∀ v ∈ vs, v ∈ m.automaton.states) →
      ∀ w ∈ m.graph.closure vs, w ∈ m.automaton.states := by
    intro vs hvs w hw
    obtain ⟨v, hv, hpath⟩ := mem_closure_iff.1 hw
    exact hpath.preserves (hvs v hv) hm.target_mem
  -- The last symbol goes on from what the symbols before it lead to.
  induction word using List.reverseRecOn with
  | nil =>
    refine hclosure _ fun v hv => ?_
    rw [OrdSet.mem_singleton.1 hv]
    exact hm.start_mem
  | append_singleton word l ih =>
    have hlast : m.reached (word ++ [l]) = m.onwardBy (m.reached word) l :=
      Machine.reached_append ..
    rw [hlast, Machine.onwardBy]
    split
    · refine hclosure _ fun v hv => ?_
      obtain ⟨u, hu, huv⟩ := mem_targets.1 hv
      exact hm.target_mem u (ih u hu) l v huv
    · exact fun v hv => absurd hv (OrdSet.not_mem_empty v)

/-- If a deterministic automaton is somewhere at more positions than it has states, it is in the
same state at two of them. The positions up to the number of states are one more than the states, so
by the pigeonhole principle two of them share the state that the automaton is in. -/
theorem exists_met_again (hm : m.automaton.WellFormed m.graph)
    (hd : m.graph.Deterministic m.automaton.states) {word : Nat → List Label}
    (hsome : ∀ p ≤ m.automaton.states.size, m.reached (word p) ≠ ∅) :
    ∃ k l, k < l ∧ l ≤ m.automaton.states.size ∧
      ∃ v, v ∈ m.reached (word k) ∧ v ∈ m.reached (word l) := by
  have hone : ∀ p, ∃ v, p ≤ m.automaton.states.size →
      v ∈ m.automaton.states ∧ v ∈ m.reached (word p) := by
    intro p
    obtain hnowhere | ⟨v, hv, heq⟩ := hm.reached_eq hd (word p)
    · exact ⟨0, fun hp => absurd hnowhere (hsome p hp)⟩
    · refine ⟨v, fun _ => ⟨hv, ?_⟩⟩
      rw [heq]
      exact OrdSet.mem_singleton.2 rfl
  -- a state for each position; which one is chosen too far on does not matter
  choose f hf using hone
  have hcard : m.automaton.states.toList.toFinset.card <
      (Finset.range (m.automaton.states.size + 1)).card := by
    rw [List.toFinset_card_of_nodup m.automaton.states.nodup_toList, Finset.card_range]
    exact Nat.lt_succ_self _
  have hmaps : ∀ p ∈ Finset.range (m.automaton.states.size + 1),
      f p ∈ m.automaton.states.toList.toFinset := by
    intro p hp
    rw [List.mem_toFinset]
    exact (hf p (Nat.le_of_lt_succ (Finset.mem_range.1 hp))).1
  obtain ⟨k, hk, l, hl, hne, heq⟩ := Finset.exists_ne_map_eq_of_card_lt_of_maps_to hcard hmaps
  have hk := Nat.le_of_lt_succ (Finset.mem_range.1 hk)
  have hl := Nat.le_of_lt_succ (Finset.mem_range.1 hl)
  -- the two positions come in either order
  rcases Nat.lt_or_gt_of_ne hne with hlt | hlt
  · exact ⟨k, l, hlt, hl, f k, (hf k hk).2, heq ▸ (hf l hl).2⟩
  · exact ⟨l, k, hlt, hk, f l, (hf l hl).2, heq ▸ (hf k hk).2⟩

end Automaton.WellFormed

/-! ## Calls -/

/-- Once an interval is known nothing more is noted, so the first interval that is found is the one
that stays. -/
theorem Run.record_of_known {r : Run} {g : Graph} (h : r.pumping.isSome = true) :
    r.record g = r := by
  rw [record, if_pos h]

namespace Machine

variable {m : Machine}

/-- The machine after going back to the beginning and after calls that read one symbol each. A call
may be refused. -/
def called (m : Machine) (calls : List Label) : Machine :=
  calls.foldl (fun m l => leftBy (Edit.readSymbol l m)) (leftBy (Edit.reset m))

/-- The symbols that are read in calls. -/
def readIn (m : Machine) (calls : List Label) : List Label :=
  calls.filter (Edit.Readable m.automaton ·)

/-- The states that are current when so many symbols were read. -/
def currentAt (m : Machine) (calls : List Label) (p : Nat) : VertexSet :=
  m.reached ((m.readIn calls).take p)

/-- A refused call changes nothing, and the others read. So calls in any order leave what reading
the symbols that are not refused leaves. -/
theorem foldl_readSymbol (hlive : m.automaton.discarded = false) (calls : List Label) :
    calls.foldl (fun m l => leftBy (Edit.readSymbol l m)) m = m.advanceAll (m.readIn calls) := by
  induction calls generalizing m with
  | nil => rfl
  | cons l calls ih =>
    rw [List.foldl_cons, readIn]
    by_cases hl : Edit.Readable m.automaton l
    · rw [Edit.readSymbol_eq hlive hl, List.filter_cons_of_pos (by simpa using hl),
        advanceAll_cons]
      -- what may be read does not change with the run
      exact ih (m := m.advance l) hlive
    · rw [Edit.readSymbol_refused hlive hl, List.filter_cons_of_neg (by simpa using hl)]
      exact ih hlive

/-- Calls from the beginning come to reading what is not refused. All that is proved below about
calls is obtained from what is known of reading a word. -/
theorem called_eq (hlive : m.automaton.discarded = false) (calls : List Label) :
    m.called calls = m.reset.advanceAll (m.readIn calls) := by
  rw [called, Edit.reset_eq hlive]
  exact foldl_readSymbol (m := m.reset) hlive calls

/-- The position counts the symbols that were read. Refused calls are not counted. -/
theorem position_called (hlive : m.automaton.discarded = false) (calls : List Label) :
    (m.called calls).automaton.run.position = (m.readIn calls).length := by
  rw [called_eq hlive, position_advanceAll_reset]

/-- After some of the calls the current states are those of the position that they lead to. Refused
calls stay at one position, so several numbers of calls may lead to the same one. -/
theorem current_called_take (hlive : m.automaton.discarded = false) (calls : List Label) (q : Nat) :
    (m.called (calls.take q)).automaton.run.current =
      m.currentAt calls (m.called (calls.take q)).automaton.run.position := by
  have hprefix : m.readIn (calls.take q) <+: m.readIn calls :=
    (List.take_prefix q calls).filter _
  rw [position_called hlive, called_eq hlive, current_reset_advanceAll, currentAt,
    ← List.prefix_iff_eq_take.1 hprefix]

/-- Reading on never changes an interval that is known. -/
theorem pumping_advanceAll {interval : Nat × Nat}
    (h : m.automaton.run.pumping = some interval) (ls : List Label) :
    (m.advanceAll ls).automaton.run.pumping = some interval := by
  induction ls generalizing m with
  | nil => exact h
  | cons l ls ih =>
    have hknown : m.automaton.run.pumping.isSome = true := by
      rw [h]
      rfl
    have hrun := Run.record_of_known (g := m.graph) (r := { m.automaton.run with
      current := m.after l, position := m.automaton.run.position + 1 }) hknown
    rw [advanceAll_cons]
    exact ih ((congrArg Run.pumping hrun).trans h)

/-- Once an interval is known it is kept, whatever calls follow. -/
theorem pumping_called_append (hlive : m.automaton.discarded = false) {calls : List Label}
    {interval : Nat × Nat} (h : (m.called calls).automaton.run.pumping = some interval)
    (more : List Label) : (m.called (calls ++ more)).automaton.run.pumping = some interval := by
  rw [called_eq hlive] at h ⊢
  rw [readIn, List.filter_append, advanceAll_append]
  exact pumping_advanceAll h _

/-- The run has noted which states were current at the positions so far, the current one
included. -/
theorem noted_called (hlive : m.automaton.discarded = false) (calls : List Label) :
    (m.called calls).automaton.run.Noted m.graph (m.currentAt calls)
      ((m.called calls).automaton.run.position + 1) := by
  rw [position_called hlive, called_eq hlive]
  exact m.noted_advanceAll _

end Machine

/-! ## Notes -/

/-- The sets of states at the positions before a given one are disjoint. -/
def Run.Apart (S : Nat → VertexSet) (n : Nat) : Prop :=
  ∀ i < n, ∀ j < n, ∀ v ∈ S i, v ∈ S j → i = j

namespace Edit

open Machine

variable {m : Machine}

/-- What calls leave noted is exact. While the sets of current states are disjoint, there is no
interval and each state is noted where it is met. After that the interval leads from where the least
state met again was met to the first position where a state is met again, and it is kept. In a
deterministic automaton that is never nowhere, that is no later than at the position which is the
number of its states. -/
theorem notes_exact (hcheck : m.automaton.violation? m.graph = none)
    (hlive : m.automaton.discarded = false) (calls : List Label) :
    (∀ q, (m.called (calls.take q)).automaton.run.current =
      m.currentAt calls (m.called (calls.take q)).automaton.run.position) ∧
    (Run.Apart (m.currentAt calls) ((m.called calls).automaton.run.position + 1) →
      (m.called calls).automaton.run.pumping = none ∧
        ∀ v p, (m.called calls).automaton.run.visits.get? v = some p ↔
          p ≤ (m.called calls).automaton.run.position ∧ v ∈ m.currentAt calls p) ∧
    (¬Run.Apart (m.currentAt calls) ((m.called calls).automaton.run.position + 1) →
      ∃ i j, i < j ∧ j ≤ (m.called calls).automaton.run.position ∧
        Run.Apart (m.currentAt calls) j ∧
        (∃ v ∈ m.currentAt calls j, v ∈ m.currentAt calls i ∧
          ∀ w ∈ m.currentAt calls j, w ≠ v → (∃ k < j, w ∈ m.currentAt calls k) →
            (m.graph.node v).id < (m.graph.node w).id) ∧
        (m.called calls).automaton.run.pumping = some (i, j) ∧
          ∀ more, (m.called (calls ++ more)).automaton.run.pumping = some (i, j)) ∧
    (m.automaton.isDeterministic m.graph = true →
      m.automaton.states.size ≤ (m.called calls).automaton.run.position →
        (∀ p ≤ m.automaton.states.size, m.currentAt calls p ≠ ∅) →
          ∃ i j, (m.called calls).automaton.run.pumping = some (i, j) ∧ i < j ∧
            j ≤ m.automaton.states.size) := by
  have hwf := Automaton.violation?_eq_none_iff.1 hcheck
  have hnoted := noted_called hlive calls
  -- the four parts are the current states, the notes without an interval, the interval once there
  -- is one, and how soon there is one
  refine ⟨current_called_take hlive calls, ?_, ?_, ?_⟩
  · intro hapart
    obtain hnew | ⟨i, j, hj, hmet⟩ := hnoted
    · refine ⟨hnew.pumping_eq, fun v p => ?_⟩
      rw [hnew.visits_iff, Nat.lt_succ_iff]
    · obtain ⟨v, hvj, hvi, _⟩ := hmet.exists_least
      exact absurd (hapart i (Nat.lt_trans hmet.lt hj) j hj v hvi hvj) (Nat.ne_of_lt hmet.lt)
  · intro hmeet
    obtain hnew | ⟨i, j, hj, hmet⟩ := hnoted
    · exact absurd hnew.disjoint hmeet
    · obtain ⟨v, hvj, hvi, hleast⟩ := hmet.exists_least
      refine ⟨i, j, hmet.lt, Nat.le_of_lt_succ hj, hmet.disjoint, ⟨v, hvj, hvi, ?_⟩,
        hmet.pumping_eq, pumping_called_append hlive hmet.pumping_eq⟩
      intro w hw hne hearlier
      -- no two states of the automaton have the same identifier
      have hid : (m.graph.node v).id ≠ (m.graph.node w).id := fun heq =>
        hne (hwf.id_injective v (hwf.mem_states_of_mem_reached _ v hvj) w
          (hwf.mem_states_of_mem_reached _ w hw) heq).symm
      exact lt_of_le_of_ne (hleast w hw hearlier) hid
  · -- a state is met again by then, so the sets before that position are not all disjoint
    intro hdet hlong hsome
    obtain ⟨k, l, hkl, hl, v, hvk, hvl⟩ :=
      hwf.exists_met_again (hwf.isDeterministic_iff.1 hdet) hsome
    obtain hnew | ⟨i, j, hj, hmet⟩ := hnoted
    · exact absurd (hnew.disjoint k (by omega) l (by omega) v hvk hvl) (Nat.ne_of_lt hkl)
    · refine ⟨i, j, hmet.pumping_eq, hmet.lt, ?_⟩
      by_contra hlate
      exact absurd (hmet.disjoint k (by omega) l (by omega) v hvk hvl) (Nat.ne_of_lt hkl)

/-- The two states that lead to each other, but strict. -/
def strictBackAndForth : Machine := backAndForth.onAutomaton fun a => { a with strict := true }

/-- Being strict does not matter to the check. -/
theorem violation?_strictBackAndForth :
    strictBackAndForth.automaton.violation? strictBackAndForth.graph = none :=
  Automaton.violation?_eq_none_iff.2 { sound_backAndForth.wellFormed with }

/-- A refused call is not counted. After three symbols that are read, one of the three states has
been met again. -/
theorem notes_exact_strictBackAndForth :
    strictBackAndForth.automaton.violation? strictBackAndForth.graph = none ∧
    strictBackAndForth.automaton.discarded = false ∧
    ((strictBackAndForth.called [.symbol "a", .symbol "c"]).automaton.run.pumping = none ∧
      (strictBackAndForth.called [.symbol "a", .symbol "c"]).automaton.run.visits.get? 1 = some 1) ∧
    strictBackAndForth.automaton.isDeterministic strictBackAndForth.graph = true ∧
      ∃ i j, (strictBackAndForth.called [.symbol "a", .symbol "c", .symbol "b",
        .symbol "a"]).automaton.run.pumping = some (i, j) ∧ i < j ∧ j ≤ 3 := by
  have hcheck := violation?_strictBackAndForth
  have hdet : strictBackAndForth.automaton.isDeterministic strictBackAndForth.graph = true := by
    decide
  obtain ⟨_, hapart, _, _⟩ := notes_exact hcheck rfl [.symbol "a", .symbol "c"]
  have hposition : (strictBackAndForth.called
      [.symbol "a", .symbol "c"]).automaton.run.position = 1 := by
    rw [position_called rfl]
    decide
  -- the two states are current one after the other, so after one symbol nothing was met again
  have hzero : strictBackAndForth.currentAt [.symbol "a", .symbol "c"] 0 = {0} := by cbv
  have hone : strictBackAndForth.currentAt [.symbol "a", .symbol "c"] 1 = {1} := by cbv
  have hdisjoint : Run.Apart (strictBackAndForth.currentAt [.symbol "a", .symbol "c"]) 2 := by
    have hmem : ∀ p < 2, ∀ v ∈ strictBackAndForth.currentAt [.symbol "a", .symbol "c"] p,
        v = p := by
      intro p hp v hv
      rcases Nat.lt_succ_iff_lt_or_eq.1 hp with hp | rfl
      · obtain rfl := Nat.lt_one_iff.1 hp
        rwa [hzero, OrdSet.mem_singleton] at hv
      · rwa [hone, OrdSet.mem_singleton] at hv
    exact fun i hi j hj v hvi hvj => (hmem i hi v hvi).symm.trans (hmem j hj v hvj)
  rw [hposition] at hapart
  obtain ⟨hnone, hvisits⟩ := hapart hdisjoint
  -- with three symbols read there have been four positions, more than there are states
  obtain ⟨_, _, _, hbound⟩ := notes_exact hcheck rfl
    [.symbol "a", .symbol "c", .symbol "b", .symbol "a"]
  have hposition' : (strictBackAndForth.called
      [.symbol "a", .symbol "c", .symbol "b", .symbol "a"]).automaton.run.position = 3 := by
    rw [position_called rfl]
    decide
  have hsets : (List.range 4).map (strictBackAndForth.currentAt
      [.symbol "a", .symbol "c", .symbol "b", .symbol "a"]) = [{0}, {1}, {0}, {1}] := by cbv
  have hsome : ∀ p ≤ 3, strictBackAndForth.currentAt
      [.symbol "a", .symbol "c", .symbol "b", .symbol "a"] p ≠ ∅ := by
    intro p hp hempty
    have hmem := List.mem_map_of_mem (f := strictBackAndForth.currentAt
      [.symbol "a", .symbol "c", .symbol "b", .symbol "a"])
      (List.mem_range.2 (Nat.lt_succ_of_le hp))
    rw [hsets, hempty] at hmem
    revert hmem
    decide
  refine ⟨hcheck, rfl, ⟨hnone, (hvisits 1 1).2 ⟨Nat.le_refl 1, ?_⟩⟩, hdet,
    hbound hdet (Nat.le_of_eq hposition'.symm) hsome⟩
  rw [hone]
  exact OrdSet.mem_singleton.2 rfl

end Edit

end PatternAutomata
