/-
What a run notes of the states that it meets.

After each symbol a run notes the position of the states that it may be in. While no state is met
twice, the notes say exactly which states were met and where (`Run.AllNew`). Once some state is met
again, the two positions are kept as an interval and nothing is noted any more (`Run.MetAgain`). One
of the two holds after one symbol more (`Run.Noted.record`), and so after every word
(`Machine.noted_advanceAll`).

The part of an accepted word between the two positions may be left out if what the later position
may be in is all among what the earlier one may be in, and may be repeated if it is the other way
round (`Edit.accepts_pumped`). In a deterministic automaton both are the same one state. Otherwise
the state that is met again need not be on the way to acceptance, and then neither need be possible
(`Edit.not_accepts_pumped_sideLoop`).
-/
import Mathlib
import PatternAutomata.Proofs.Canonical.Numbering
import PatternAutomata.Proofs.Words.Acceptance

set_option autoImplicit false

namespace PatternAutomata

open PatternAutomata.Graph

/-! ## Where words lead -/

namespace Machine

variable {m : Machine}

/-- Where one symbol leads from some states. One outside the alphabet leads nowhere. -/
def onwardBy (m : Machine) (vs : VertexSet) (l : Label) : VertexSet :=
  if l ∈ m.automaton.alphabet then m.graph.closure (m.graph.targets vs l) else ∅

/-- Where a word leads from some states. -/
def onward (m : Machine) (vs : VertexSet) (word : List Label) : VertexSet :=
  word.foldl m.onwardBy vs

/-- Where a word leads from the beginning. -/
def reached (m : Machine) (word : List Label) : VertexSet :=
  m.onward (m.graph.closure {m.automaton.start}) word

/-- A word leads where its second part leads from where the first part led. -/
theorem onward_append (vs : VertexSet) (x y : List Label) :
    m.onward vs (x ++ y) = m.onward (m.onward vs x) y :=
  List.foldl_append

/-- This holds from the beginning too. -/
theorem reached_append (x y : List Label) : m.reached (x ++ y) = m.onward (m.reached x) y :=
  onward_append ..

/-- From more states a word leads to more states. By induction on the word, since one symbol leads
from more states to more states. -/
theorem onward_mono {vs ws : VertexSet} (hsub : ∀ v ∈ vs, v ∈ ws) (word : List Label) :
    ∀ v ∈ m.onward vs word, v ∈ m.onward ws word := by
  induction word generalizing vs ws with
  | nil => exact hsub
  | cons l word ih =>
    apply ih
    intro v hv
    rw [onwardBy] at hv ⊢
    by_cases hl : l ∈ m.automaton.alphabet
    · rw [if_pos hl] at hv ⊢
      obtain ⟨u, hu, hpath⟩ := mem_closure_iff.1 hv
      obtain ⟨x, hx, hxu⟩ := mem_targets.1 hu
      exact mem_closure_iff.2 ⟨u, mem_targets.2 ⟨x, hsub x hx, hxu⟩, hpath⟩
    · rw [if_neg hl] at hv
      exact absurd hv (OrdSet.not_mem_empty v)

/-- Reading goes where words lead. The notes of a run play no part in that. -/
theorem current_advanceAll_eq (word : List Label) :
    (m.advanceAll word).automaton.run.current = m.onward m.automaton.run.current word := by
  induction word generalizing m with
  | nil => rfl
  | cons l word ih =>
    rw [advanceAll_cons, ih, current_advance]
    rfl

/-- From the beginning, reading a word leads to what the word reaches. -/
theorem current_reset_advanceAll (word : List Label) :
    (m.reset.advanceAll word).automaton.run.current = m.reached word := by
  rw [current_advanceAll_eq, current_reset]
  rfl

/-- Reading two words one after the other is reading them put together. -/
theorem advanceAll_append (x y : List Label) :
    m.advanceAll (x ++ y) = (m.advanceAll x).advanceAll y :=
  List.foldl_append

end Machine

/-- In a deterministic automaton a word leads to one of its states or nowhere. There are no silent
edges that could lead to a second state, and no state has two edges with one label. -/
theorem Automaton.WellFormed.reached_eq {m : Machine} (hm : m.automaton.WellFormed m.graph)
    (hd : m.graph.Deterministic m.automaton.states) (word : List Label) :
    m.reached word = ∅ ∨ ∃ v ∈ m.automaton.states, m.reached word = {v} := by
  induction word using List.reverseRecOn with
  | nil => exact Or.inr ⟨_, hm.start_mem, hd.closure_singleton hm.start_mem⟩
  | append_singleton word l ih =>
    have hlast : m.reached (word ++ [l]) = m.onwardBy (m.reached word) l :=
      Machine.reached_append ..
    rw [hlast, Machine.onwardBy]
    by_cases hl : l ∈ m.automaton.alphabet
    · rw [if_pos hl]
      obtain hnowhere | ⟨v, hv, hone⟩ := ih
      · rw [hnowhere]
        exact Or.inl (closure_targets_empty l)
      · rw [hone, hd.closure_targets hm.target_mem hv]
        by_cases hsome : ∃ u, u ∈ m.graph.destinations v l
        · obtain ⟨u, hu⟩ := hsome
          exact Or.inr ⟨u, hm.target_mem v hv l u hu,
            OrdSet.eq_singleton hu fun w hw => hd.unique v hv l w hw u hu⟩
        · exact Or.inl (OrdSet.eq_empty_iff.2 (not_exists.1 hsome))
    · rw [if_neg hl]
      exact Or.inl rfl

/-! ## Notes -/

namespace Run

variable {g : Graph} {S : Nat → VertexSet} {n : Nat} {r r' : Run}

/-- Noting states does not move on. -/
theorem position_recordAll (r : Run) (vs : List Vertex) :
    (r.recordAll vs).position = r.position := by
  induction vs generalizing r with
  | nil => rfl
  | cons v vs ih =>
    rw [recordAll]
    split
    · rfl
    · exact ih _

/-- Recording does not move on, whether or not an interval is known. -/
theorem position_record (r : Run) (g : Graph) : (r.record g).position = r.position := by
  rw [record]
  split
  · rfl
  · exact position_recordAll r _

/-- States none of which was met before are all noted where they are met now, and no interval is
found. -/
theorem recordAll_of_new {vs : List Vertex} (hnodup : vs.Nodup)
    (hnew : ∀ v ∈ vs, r.visits.get? v = none) : (r.recordAll vs).pumping = r.pumping ∧
      ∀ v p, (r.recordAll vs).visits.get? v = some p ↔
        r.visits.get? v = some p ∨ v ∈ vs ∧ p = r.position := by
  induction vs generalizing r with
  | nil =>
    refine ⟨rfl, fun v p => ⟨Or.inl, ?_⟩⟩
    rintro (h | ⟨hv, _⟩)
    · exact h
    · exact absurd hv List.not_mem_nil
  | cons v vs ih =>
    obtain ⟨hv_new, hnodup⟩ := List.nodup_cons.1 hnodup
    have hfirst : r.recordAll (v :: vs) =
        recordAll { r with visits := r.visits.insert v r.position } vs := by
      rw [recordAll, hnew v List.mem_cons_self]
    -- the first state is noted, and is none of the others
    obtain ⟨hpumping, hvisits⟩ := ih (r := { r with visits := r.visits.insert v r.position })
      hnodup fun w hw => by
        rw [OrdMap.get?_insert, if_neg (ne_of_mem_of_not_mem hw hv_new)]
        exact hnew w (List.mem_cons_of_mem v hw)
    rw [hfirst]
    refine ⟨hpumping, fun w p => ?_⟩
    rw [hvisits, OrdMap.get?_insert, List.mem_cons]
    by_cases hwv : w = v
    · rw [if_pos hwv, hwv, hnew v List.mem_cons_self]
      simp only [Option.some.injEq, hv_new, false_and, or_false, reduceCtorEq, true_and,
        false_or]
      exact eq_comm
    · simp only [hwv, if_false, false_or]

/-- The first state that was met before gives the interval, from where it was met to the current
position. The states before it in the list are new; what is noted of them does not matter any
more. -/
theorem recordAll_of_met {vs : List Vertex} (hnodup : vs.Nodup)
    (hmet : ∃ v ∈ vs, ∃ p, r.visits.get? v = some p) : ∃ before v rest p,
      vs = before ++ v :: rest ∧ (∀ w ∈ before, r.visits.get? w = none) ∧
        r.visits.get? v = some p ∧ (r.recordAll vs).pumping = some (p, r.position) := by
  induction vs generalizing r with
  | nil =>
    obtain ⟨v, hv, _⟩ := hmet
    exact absurd hv List.not_mem_nil
  | cons v vs ih =>
    obtain ⟨hv_new, hnodup⟩ := List.nodup_cons.1 hnodup
    cases hv : r.visits.get? v with
    | some p =>
      refine ⟨[], v, vs, p, rfl, fun w hw => absurd hw List.not_mem_nil, hv, ?_⟩
      rw [recordAll, hv]
    | none =>
      -- noting this state does not change what is known of the others, as no state comes twice
      have hkept : ∀ w ∈ vs, (r.visits.insert v r.position).get? w = r.visits.get? w := by
        intro w hw
        rw [OrdMap.get?_insert, if_neg (ne_of_mem_of_not_mem hw hv_new)]
      have hmet' : ∃ w ∈ vs, ∃ p, (r.visits.insert v r.position).get? w = some p := by
        obtain ⟨w, hw, p, hp⟩ := hmet
        rcases List.mem_cons.1 hw with rfl | hw
        · rw [hv] at hp
          cases hp
        · exact ⟨w, hw, p, (hkept w hw).trans hp⟩
      obtain ⟨before, w, rest, p, rfl, hbefore, hw, hpumping⟩ :=
        ih (r := { r with visits := r.visits.insert v r.position }) hnodup hmet'
      refine ⟨v :: before, w, rest, p, rfl, ?_, ?_, ?_⟩
      · intro x hx
        rcases List.mem_cons.1 hx with rfl | hx
        · exact hv
        · rw [← hkept x (List.mem_append_left _ hx)]
          exact hbefore x hx
      · rw [← hkept w (List.mem_append_right before List.mem_cons_self)]
        exact hw
      · rw [recordAll, hv]
        exact hpumping

/-- The sets of states at the positions before a given one are disjoint, and what is noted is
which states they hold. -/
structure AllNew (S : Nat → VertexSet) (n : Nat) (r : Run) : Prop where
  pumping_eq : r.pumping = none
  disjoint : ∀ i < n, ∀ j < n, ∀ v ∈ S i, v ∈ S j → i = j
  visits_iff : ∀ v p, r.visits.get? v = some p ↔ p < n ∧ v ∈ S p

/-- The sets of states at the positions before the second one noted are disjoint, and there some
state is met again. The first position noted is where the least such state was met. -/
structure MetAgain (g : Graph) (S : Nat → VertexSet) (i j : Nat) (r : Run) : Prop where
  pumping_eq : r.pumping = some (i, j)
  lt : i < j
  disjoint : ∀ k < j, ∀ l < j, ∀ v ∈ S k, v ∈ S l → k = l
  exists_least : ∃ v ∈ S j, v ∈ S i ∧
    ∀ w ∈ S j, (∃ k < j, w ∈ S k) → (g.node v).id ≤ (g.node w).id

namespace AllNew

/-- As long as no interval is known, the current states are gone through one by one, in the order of
their identifiers. -/
theorem record_eq (hnew : r.AllNew S n) (g : Graph) :
    r.record g = r.recordAll (g.inOrder r.current) := by
  rw [Run.record, hnew.pumping_eq]
  rfl

/-- If a current state was met before, the first such state in the order gives the interval, and
that is the one with the least identifier. -/
theorem record_of_met (hnew : r.AllNew S n) (hposition : r.position = n)
    (hcurrent : r.current = S n) (hmet : ∃ v ∈ S n, ∃ k < n, v ∈ S k) :
    ∃ p, (r.record g).MetAgain g S p n := by
  have hlisted : ∀ v, v ∈ g.inOrder r.current ↔ v ∈ S n := by
    intro v
    rw [mem_inOrder, hcurrent]
  have hnoted : ∃ v ∈ g.inOrder r.current, ∃ p, r.visits.get? v = some p := by
    obtain ⟨v, hv, k, hk, hvk⟩ := hmet
    exact ⟨v, (hlisted v).2 hv, k, (hnew.visits_iff v k).2 ⟨hk, hvk⟩⟩
  obtain ⟨before, v, rest, p, hlist, hbefore, hv, hpumping⟩ :=
    recordAll_of_met (g.nodup_inOrder r.current) hnoted
  obtain ⟨hp, hvp⟩ := (hnew.visits_iff v p).1 hv
  rw [← hnew.record_eq, hposition] at hpumping
  refine ⟨p, hpumping, hp, hnew.disjoint, v, ?_, hvp, ?_⟩
  · rw [← hlisted, hlist]
    exact List.mem_append_right before List.mem_cons_self
  · rintro w hw ⟨k, hk, hwk⟩
    rw [← hlisted, hlist] at hw
    rcases List.mem_append.1 hw with hw | hw
    · -- those before it are met for the first time
      have hnone := hbefore w hw
      rw [(hnew.visits_iff w k).2 ⟨hk, hwk⟩] at hnone
      cases hnone
    rcases List.mem_cons.1 hw with rfl | hw
    · exact Int.le_refl _
    · have hsorted : (g.inOrder r.current).Pairwise fun v w => (g.node v).id ≤ (g.node w).id :=
        pairwise_sortById _
      rw [hlist] at hsorted
      exact (List.pairwise_cons.1 (List.pairwise_append.1 hsorted).2.1).1 w hw

/-- If no current state was met before, all of them are noted at the current position, and the sets
of states are disjoint up to and with this position. -/
theorem record_of_new (hnew : r.AllNew S n) (hposition : r.position = n)
    (hcurrent : r.current = S n) (hapart : ∀ k < n, ∀ v ∈ S n, v ∉ S k) :
    (r.record g).AllNew S (n + 1) := by
  have hlisted : ∀ v, v ∈ g.inOrder r.current ↔ v ∈ S n := by
    intro v
    rw [mem_inOrder, hcurrent]
  have hfirst : ∀ v ∈ g.inOrder r.current, r.visits.get? v = none := by
    intro v hv
    cases hget : r.visits.get? v with
    | none => rfl
    | some p =>
      obtain ⟨hp, hvp⟩ := (hnew.visits_iff v p).1 hget
      exact absurd hvp (hapart p hp v ((hlisted v).1 hv))
  obtain ⟨hpumping, hvisits⟩ := recordAll_of_new (g.nodup_inOrder r.current) hfirst
  rw [← hnew.record_eq] at hpumping hvisits
  refine ⟨hpumping.trans hnew.pumping_eq, ?_, ?_⟩
  · -- two positions are both earlier ones, or one of them is the current one
    intro i hi j hj v hvi hvj
    rcases Nat.lt_succ_iff_lt_or_eq.1 hi with hi | rfl
    · rcases Nat.lt_succ_iff_lt_or_eq.1 hj with hj | rfl
      · exact hnew.disjoint i hi j hj v hvi hvj
      · exact absurd hvi (hapart i hi v hvj)
    · rcases Nat.lt_succ_iff_lt_or_eq.1 hj with hj | rfl
      · exact absurd hvj (hapart j hj v hvi)
      · rfl
  · intro v p
    rw [hvisits, hnew.visits_iff, hlisted, hposition]
    constructor
    · rintro (⟨hp, hv⟩ | ⟨hv, rfl⟩)
      · exact ⟨Nat.lt_succ_of_lt hp, hv⟩
      · exact ⟨Nat.lt_succ_self p, hv⟩
    · rintro ⟨hp, hv⟩
      rcases Nat.lt_succ_iff_lt_or_eq.1 hp with hp | rfl
      · exact Or.inl ⟨hp, hv⟩
      · exact Or.inr ⟨hv, rfl⟩

end AllNew

/-- An interval that is known already stays, and nothing more is noted. -/
theorem MetAgain.record_eq {i j : Nat} (hmet : r.MetAgain g S i j) (g' : Graph) :
    r.record g' = r := by
  rw [Run.record, hmet.pumping_eq]
  rfl

/-- What a run has noted of the sets of states at the positions before a given one. -/
def Noted (g : Graph) (S : Nat → VertexSet) (n : Nat) (r : Run) : Prop :=
  r.AllNew S n ∨ ∃ i j, j < n ∧ r.MetAgain g S i j

namespace Noted

/-- What is noted is kept in two fields of the run only. -/
theorem congr (hr : r.Noted g S n) (hvisits : r'.visits = r.visits)
    (hpumping : r'.pumping = r.pumping) : r'.Noted g S n := by
  obtain h | ⟨i, j, hj, h⟩ := hr
  · exact Or.inl ⟨hpumping.trans h.pumping_eq, h.disjoint, hvisits ▸ h.visits_iff⟩
  · exact Or.inr ⟨i, j, hj, hpumping.trans h.pumping_eq, h.lt, h.disjoint, h.exists_least⟩

/-- Before anything is read nothing is noted: there is no position before the first one. -/
theorem zero (current : VertexSet) : Noted g S 0 { current } := by
  refine Or.inl ⟨rfl, fun i hi => absurd hi (Nat.not_lt_zero i), fun v p => ?_⟩
  constructor
  · intro h
    cases h
  · exact fun h => absurd h.1 (Nat.not_lt_zero p)

/-- One symbol more: if the notes are right for the positions before the current one, they are right
with it. Either all current states are new, or one of them was met before, or the interval is known
from earlier on. -/
theorem record (hr : r.Noted g S n) (hposition : r.position = n) (hcurrent : r.current = S n) :
    (r.record g).Noted g S (n + 1) := by
  obtain hnew | ⟨i, j, hj, hmet⟩ := hr
  · by_cases hmet : ∃ v ∈ S n, ∃ k < n, v ∈ S k
    · obtain ⟨p, hagain⟩ := hnew.record_of_met hposition hcurrent hmet
      exact Or.inr ⟨p, n, Nat.lt_succ_self n, hagain⟩
    · have hapart : ∀ k < n, ∀ v ∈ S n, v ∉ S k :=
        fun k hk v hv hvk => hmet ⟨v, hv, k, hk, hvk⟩
      exact Or.inl (hnew.record_of_new hposition hcurrent hapart)
  · rw [hmet.record_eq]
    exact Or.inr ⟨i, j, Nat.lt_succ_of_lt hj, hmet⟩

end Noted

end Run

namespace Machine

variable {m : Machine}

/-- After part of a word the run has noted which states the parts of it lead to. By induction on how
much is read: one symbol more moves to the next position and records the states that are current
there (`Run.Noted.record`). -/
theorem noted_advanceAll_take (word : List Label) {k : Nat} (hk : k ≤ word.length) :
    (m.reset.advanceAll (word.take k)).automaton.run.position = k ∧
      (m.reset.advanceAll (word.take k)).automaton.run.Noted m.graph
        (fun p => m.reached (word.take p)) (k + 1) := by
  induction k with
  | zero =>
    have hstart : m.reset.automaton.run.Noted m.graph (fun p => m.reached (word.take p)) 1 :=
      Run.Noted.record (.zero (m.graph.closure {m.automaton.start})) rfl rfl
    exact ⟨Run.position_record _ m.graph, hstart⟩
  | succ k ih =>
    obtain ⟨hposition, hnoted⟩ := ih (Nat.le_of_succ_le hk)
    have htake : word.take (k + 1) = word.take k ++ [word[k]] :=
      List.take_succ_eq_append_getElem hk
    have hcurrent := current_reset_advanceAll (m := m) (word.take (k + 1))
    rw [htake, advanceAll_append] at hcurrent ⊢
    generalize hbefore : m.reset.advanceAll (word.take k) = before at *
    have hgraph : before.graph = m.graph := by
      rw [← hbefore, graph_advanceAll]
      rfl
    have hafter : before.after word[k] = m.reached (word.take (k + 1)) := by
      rw [← current_advance, htake]
      exact hcurrent
    have hnext : (before.advance word[k]).automaton.run.Noted m.graph
        (fun p => m.reached (word.take p)) (k + 1 + 1) := by
      have hrecord := Run.Noted.record (g := m.graph) (S := fun p => m.reached (word.take p))
        (r := { before.automaton.run with
          current := before.after word[k], position := before.automaton.run.position + 1 })
        (hnoted.congr rfl rfl) (congrArg (· + 1) hposition) hafter
      rw [← hgraph] at hrecord ⊢
      exact hrecord
    refine ⟨?_, hnext⟩
    exact (Run.position_record _ before.graph).trans (congrArg (· + 1) hposition)

/-- After a word the run has noted which states the parts of it lead to, at each position up to its
end. -/
theorem noted_advanceAll (m : Machine) (word : List Label) :
    (m.reset.advanceAll word).automaton.run.Noted m.graph (fun p => m.reached (word.take p))
      (word.length + 1) := by
  have hnoted := (noted_advanceAll_take (m := m) word (Nat.le_refl word.length)).2
  rwa [List.take_length] at hnoted

end Machine

/-! ## Pumping -/

/-- A word in which the part between two positions stands so many times. -/
def pumped (word : List Label) (i j k : Nat) : List Label :=
  word.take i ++ (List.replicate k ((word.take j).drop i)).flatten ++ word.drop j

/-- A pumped word has no other symbols than the word. -/
theorem mem_of_mem_pumped {word : List Label} {i j k : Nat} {l : Label}
    (hl : l ∈ pumped word i j k) : l ∈ word := by
  rw [pumped, List.mem_append, List.mem_append] at hl
  obtain (hl | hl) | hl := hl
  · exact List.mem_of_mem_take hl
  · obtain ⟨part, hpart, hl⟩ := List.mem_flatten.1 hl
    rw [List.eq_of_mem_replicate hpart] at hl
    exact List.mem_of_mem_take (List.mem_of_mem_drop hl)
  · exact List.mem_of_mem_drop hl

namespace Machine

variable {m : Machine} {word : List Label} {i j : Nat}

/-- What a part leads to from some states is also reached without the part if it is among these
states, and by repeating the part if these states are among it. -/
theorem sub_onward_replicate {vs : VertexSet} {part : List Label} {k : Nat}
    (hnone : k = 0 → ∀ v ∈ m.onward vs part, v ∈ vs)
    (hmore : 1 < k → ∀ v ∈ vs, v ∈ m.onward vs part) :
    ∀ v ∈ m.onward vs part, v ∈ m.onward vs (List.replicate k part).flatten := by
  cases k with
  | zero => exact hnone rfl
  | succ k =>
    rw [List.replicate_succ, List.flatten_cons, onward_append]
    cases k with
    | zero => exact fun v hv => hv
    | succ k =>
      have hgrow : ∀ n v, v ∈ m.onward vs part →
          v ∈ m.onward (m.onward vs part) (List.replicate n part).flatten := by
        intro n
        induction n with
        | zero => exact fun v hv => hv
        | succ n ih =>
          intro v hv
          rw [List.replicate_succ, List.flatten_cons, onward_append]
          -- what is reached by one time less is among what is reached
          exact onward_mono (onward_mono (hmore (Nat.lt_add_left k Nat.one_lt_two)) part) _ v
            (ih v hv)
      exact hgrow (k + 1)

/-- What an accepted word leads to is reached by pumping a part of it, if what the later position
may be in is among what the earlier one may be in or the other way round. The word is split into
what comes before the part, the part, and what comes after it; only the part is repeated. -/
theorem reached_sub_pumped (hij : i ≤ j) {k : Nat}
    (hnone : k = 0 → ∀ v ∈ m.reached (word.take j), v ∈ m.reached (word.take i))
    (hmore : 1 < k → ∀ v ∈ m.reached (word.take i), v ∈ m.reached (word.take j)) :
    ∀ v ∈ m.reached word, v ∈ m.reached (pumped word i j k) := by
  have hpart : m.reached (word.take j) =
      m.onward (m.reached (word.take i)) ((word.take j).drop i) := by
    have hsplit := List.take_append_drop i (word.take j)
    rw [List.take_take, Nat.min_eq_left hij] at hsplit
    rw [← reached_append, hsplit]
  have hrest : m.reached word = m.onward (m.reached (word.take j)) (word.drop j) := by
    rw [← reached_append, List.take_append_drop]
  rw [hpart] at hnone hmore
  rw [hrest, pumped, reached_append, reached_append, hpart]
  exact onward_mono (sub_onward_replicate hnone hmore) _

end Machine

namespace Edit

variable {m m' : Machine}

/-- A word that may be read is answered by whether it reaches an accepting state, and the machine is
left at its end. -/
theorem accepts_eq (hm : m.automaton.discarded = false) {ls : List Label}
    (hls : ∀ l ∈ ls, Readable m.automaton l) :
    Edit.accepts ls m = .ok (m.graph.anyAccepting (m.reached ls)) (m.reset.advanceAll ls) := by
  have hanswer : (m.reset.advanceAll ls).isAccepting = m.graph.anyAccepting (m.reached ls) := by
    rw [Machine.isAccepting, Machine.graph_advanceAll, Machine.current_reset_advanceAll]
    rfl
  simp only [accepts, outcome_bind, reset_eq hm, read_eq (m := m.reset) hm hls]
  rw [← hanswer]
  rfl

/-- What is answered at all was read to the end: the automaton was not discarded, and no symbol was
refused. The answer is whether the word reaches an accepting state. -/
theorem of_accepts_eq_ok {ls : List Label} {answer : Bool}
    (h : Edit.accepts ls m = .ok answer m') : m.automaton.discarded = false ∧
      (∀ l ∈ ls, Readable m.automaton l) ∧ m' = m.reset.advanceAll ls ∧
        answer = m.graph.anyAccepting (m.reached ls) := by
  cases hm : m.automaton.discarded with
  | true =>
    simp only [accepts, reset, outcome_bind, live_eq_error hm] at h
    cases h
  | false =>
    cases hls : refused? m.automaton ls with
    | some l =>
      simp only [accepts, outcome_bind, reset_eq hm, read_refused_eq (m := m.reset) hm hls] at h
      cases h
    | none =>
      have hread := refused?_eq_none.1 hls
      rw [accepts_eq hm hread] at h
      cases h
      exact ⟨rfl, hread, rfl, rfl⟩

/-- If an interval is noted while an accepted word is read, some state is met at both ends of it.
In a deterministic automaton the part of the word between them can be pumped. In any automaton it
can be left out if the states of the later end are among those of the earlier one, and repeated if
it is the other way round. -/
theorem accepts_pumped {word : List Label} {i j : Nat}
    (hcheck : m.automaton.violation? m.graph = none)
    (haccepts : Edit.accepts word m = .ok true m')
    (hpumping : m'.automaton.run.pumping = some (i, j)) :
    i < j ∧ j ≤ word.length ∧
      (∃ v, v ∈ m.reached (word.take i) ∧ v ∈ m.reached (word.take j)) ∧
        (m.automaton.isDeterministic m.graph = true →
          ∀ k, ∃ m'', Edit.accepts (pumped word i j k) m = .ok true m'') ∧
          ∀ k, (k = 0 → ∀ v ∈ m.reached (word.take j), v ∈ m.reached (word.take i)) →
            (1 < k → ∀ v ∈ m.reached (word.take i), v ∈ m.reached (word.take j)) →
              ∃ m'', Edit.accepts (pumped word i j k) m = .ok true m'' := by
  have hwf := Automaton.violation?_eq_none_iff.1 hcheck
  obtain ⟨hlive, hread, rfl, hanswer⟩ := of_accepts_eq_ok haccepts
  obtain hnew | ⟨i', j', hj', hmet⟩ := m.noted_advanceAll word
  · rw [hnew.pumping_eq] at hpumping
    cases hpumping
  rw [hmet.pumping_eq] at hpumping
  cases hpumping
  obtain ⟨v, hvj, hvi, _⟩ := hmet.exists_least
  have hpump : ∀ k, (k = 0 → ∀ v ∈ m.reached (word.take j), v ∈ m.reached (word.take i)) →
      (1 < k → ∀ v ∈ m.reached (word.take i), v ∈ m.reached (word.take j)) →
        ∃ m'', Edit.accepts (pumped word i j k) m = .ok true m'' := by
    intro k hnone hmore
    have hsub := Machine.reached_sub_pumped (Nat.le_of_lt hmet.lt) hnone hmore
    obtain ⟨u, hu, hacc⟩ := anyAccepting_iff.1 hanswer.symm
    have hanswer' : m.graph.anyAccepting (m.reached (pumped word i j k)) = true :=
      anyAccepting_iff.2 ⟨u, hsub u hu, hacc⟩
    refine ⟨m.reset.advanceAll (pumped word i j k), ?_⟩
    rw [accepts_eq hlive fun l hl => hread l (mem_of_mem_pumped hl), hanswer']
  refine ⟨hmet.lt, Nat.le_of_lt_succ hj', ⟨v, hvi, hvj⟩, ?_, hpump⟩
  intro hdet k
  -- one state at most is reached, and some state is reached at both ends
  have hone : ∀ ls, v ∈ m.reached ls → m.reached ls = {v} := by
    intro ls hv
    obtain hnowhere | ⟨w, _, hw⟩ := hwf.reached_eq (hwf.isDeterministic_iff.1 hdet) ls
    · rw [hnowhere] at hv
      exact absurd hv (OrdSet.not_mem_empty v)
    · rw [hw, OrdSet.mem_singleton] at hv
      rw [hw, hv]
  have hsame : m.reached (word.take i) = m.reached (word.take j) := by
    rw [hone _ hvi, hone _ hvj]
  exact hpump k (fun _ w hw => hsame ▸ hw) fun _ w hw => hsame ▸ hw

/-- Two states that lead to each other. -/
def backAndForth : Machine :=
  threeBare.connectAll [⟨0, .symbol "a", 1⟩, ⟨1, .symbol "b", 0⟩]

/-- The two states make up a sound automaton. -/
theorem sound_backAndForth : backAndForth.automaton.Sound backAndForth.graph :=
  sound_threeBare.connectAll (by decide)

/-- There and back and there again is accepted. -/
theorem accepts_backAndForth : Edit.accepts [.symbol "a", .symbol "b", .symbol "a"] backAndForth =
    .ok true (backAndForth.reset.advanceAll [.symbol "a", .symbol "b", .symbol "a"]) := by
  have hanswer : backAndForth.graph.anyAccepting
      (backAndForth.reached [.symbol "a", .symbol "b", .symbol "a"]) = true := by cbv
  rw [accepts_eq rfl fun _ _ => Or.inr rfl, hanswer]

/-- The start state is met again after two symbols. -/
theorem pumping_backAndForth : (backAndForth.reset.advanceAll
    [.symbol "a", .symbol "b", .symbol "a"]).automaton.run.pumping = some (0, 2) := by
  cbv

/-- The round from the start state and back can be made any number of times, none included. -/
theorem accepts_pumped_backAndForth :
    backAndForth.automaton.violation? backAndForth.graph = none ∧
      ∃ m', Edit.accepts [.symbol "a", .symbol "b", .symbol "a"] backAndForth = .ok true m' ∧
        m'.automaton.run.pumping = some (0, 2) ∧ ∀ k, ∃ m'', Edit.accepts
          (pumped [.symbol "a", .symbol "b", .symbol "a"] 0 2 k) backAndForth = .ok true m'' := by
  have hcheck := Automaton.violation?_eq_none_iff.2 sound_backAndForth.wellFormed
  obtain ⟨_, _, _, hpumped, _⟩ :=
    accepts_pumped hcheck accepts_backAndForth pumping_backAndForth
  exact ⟨hcheck, _, accepts_backAndForth, pumping_backAndForth, hpumped (by decide)⟩

/-- Four states without edges. -/
def fourBare : Machine where
  graph := ⟨#[{ id := 0, isStart := true }, { id := 1 }, { id := 2 }, { id := 3, isAccepting := true }]⟩
  automaton := { start := 0, states := .ofList [0, 1, 2, 3], alphabet := ∅ }

/-- Two symbols lead to acceptance, and beside this way a state leads to itself. -/
def sideLoop : Machine :=
  fourBare.connectAll [⟨0, .symbol "a", 1⟩, ⟨1, .symbol "a", 1⟩, ⟨0, .symbol "a", 2⟩,
    ⟨2, .symbol "a", 3⟩]

/-- The automaton with the loop beside the way passes the check. -/
theorem violation?_sideLoop : sideLoop.automaton.violation? sideLoop.graph = none := by
  cbv

/-- The two symbols are accepted. -/
theorem accepts_sideLoop : Edit.accepts [.symbol "a", .symbol "a"] sideLoop =
    .ok true (sideLoop.reset.advanceAll [.symbol "a", .symbol "a"]) := by
  have hanswer : sideLoop.graph.anyAccepting
      (sideLoop.reached [.symbol "a", .symbol "a"]) = true := by cbv
  rw [accepts_eq rfl fun _ _ => Or.inr rfl, hanswer]

/-- The state that leads to itself is met at the first and at the second position, so these are the
interval, although no accepted run goes there. -/
theorem pumping_sideLoop : (sideLoop.reset.advanceAll
    [.symbol "a", .symbol "a"]).automaton.run.pumping = some (1, 2) := by
  cbv

/-- The state beside the way is met again, but what is read there cannot be left out. -/
theorem not_accepts_pumped_sideLoop : ¬∀ (m m' : Machine) (word : List Label) (i j k : Nat),
    m.automaton.violation? m.graph = none → Edit.accepts word m = .ok true m' →
      m'.automaton.run.pumping = some (i, j) →
        ∃ m'', Edit.accepts (pumped word i j k) m = .ok true m'' := by
  intro hall
  obtain ⟨m'', hleft⟩ := hall _ _ _ 1 2 0 violation?_sideLoop accepts_sideLoop pumping_sideLoop
  have hrefused : sideLoop.graph.anyAccepting
      (sideLoop.reached (pumped [.symbol "a", .symbol "a"] 1 2 0)) = false := by cbv
  obtain ⟨_, _, _, hyes⟩ := of_accepts_eq_ok hleft
  rw [hrefused] at hyes
  cases hyes

end Edit

end PatternAutomata
