/-
What is accepted when parts of a graph are put together.

There are three ways of putting parts together. In series, edges that read nothing lead from
where the first part accepted to the second part, which alone accepts from then on. As a
choice, an edge that reads nothing leads from a state that nothing leads back to. As a loop,
edges that read nothing lead from where a part accepts back to one of its states.

In each case the upper bound is a family of languages that is closed against all edges, old
and new, and the lower bound takes the old paths and the new edges between them.
-/
import PatternAutomata.Proofs.Structure.Consistent
import PatternAutomata.Proofs.Words.Simulation

set_option autoImplicit false

namespace PatternAutomata.Graph

open Computability

variable {g h : Graph}

/-- A state with no way on accepts the empty word or nothing. Fragments that read one symbol or
nothing end in such a state. -/
theorem languageFrom_of_no_way {v : Vertex} (hv : ∀ l, g.destinations v l = ∅) :
    g.languageFrom v = if (g.node v).isAccepting then 1 else 0 := by
  ext word
  rw [mem_languageFrom_iff_edge]
  have hnone : ¬∃ l, ∃ w ∈ g.destinations v l, ∃ rest ∈ g.languageFrom w,
      word = l.word ++ rest := by
    rintro ⟨l, w, hw, _⟩
    rw [hv] at hw
    exact OrdSet.not_mem_empty w hw
  rw [or_iff_left hnone]
  by_cases hacc : (g.node v).isAccepting = true
  · rw [if_pos hacc, and_iff_left hacc, Language.mem_one]
  · rw [if_neg hacc]
    exact iff_of_false (fun h => hacc h.2) (Language.notMem_zero word)

/-- A state whose only edge leads to one that accepts nothing but the empty word accepts what the
edge reads, which is one symbol or nothing. -/
theorem languageFrom_of_one_way {v w : Vertex} {l : Label}
    (hv : ∀ k u, u ∈ g.destinations v k ↔ k = l ∧ u = w)
    (hacc : (g.node v).isAccepting = false) (hw : g.languageFrom w = 1) :
    g.languageFrom v = {l.word} := by
  ext word
  rw [mem_languageFrom_iff_edge, hacc]
  constructor
  · rintro (⟨_, h⟩ | ⟨k, u, hu, rest, hrest, rfl⟩)
    · nomatch h
    · -- nothing can follow what the only edge reads
      obtain ⟨rfl, rfl⟩ := (hv k u).1 hu
      rw [hw, Language.mem_one] at hrest
      rw [hrest, List.append_nil]
      rfl
  · intro hword
    refine Or.inr ⟨l, w, (hv l w).2 ⟨rfl, rfl⟩, [], ?_, ?_⟩
    · rw [hw]
      exact Language.nil_mem_one
    · rw [List.append_nil]
      exact hword

/-- What is accepted from the states of a part lies at the end of a path within it, if no edge leads
out of the part. -/
theorem exists_path_within {S : VertexSet}
    (closed : ∀ v ∈ S, ∀ l, ∀ w ∈ g.destinations v l, w ∈ S) {v : Vertex} (hv : v ∈ S)
    {word : List Label} (hword : word ∈ g.languageFrom v) :
    ∃ u ∈ S, Path g v word u ∧ (g.node u).isAccepting = true := by
  obtain ⟨u, hpath, hacc⟩ := hword
  exact ⟨u, hpath.preserves (p := (· ∈ S)) hv closed, hpath, hacc⟩

/-- A path stays one when edges are added. Whether its end accepts has to be looked at apart from
that. -/
theorem Path.mono (hsub : ∀ v l, ∀ w ∈ g.destinations v l, w ∈ h.destinations v l)
    {v w : Vertex} {word : List Label} (hpath : Path g v word w) : Path h v word w := by
  induction hpath with
  | stay v => exact .stay v
  | silent first _ ih => exact .silent (hsub _ _ _ first) ih
  | read symbol first _ ih => exact .read symbol (hsub _ _ _ first) ih

/-! ## In series -/

section Series

variable {S T : VertexSet} {t : Vertex}
  (hS : ∀ v ∈ S, ∀ l, ∀ w ∈ g.destinations v l, w ∈ S)
  (hT : ∀ v ∈ T, ∀ l, ∀ w ∈ g.destinations v l, w ∈ T)
  (disjoint : ∀ v ∈ S, v ∉ T) (ht : t ∈ T)
  (hdest : ∀ v l w, w ∈ h.destinations v l ↔ w ∈ g.destinations v l ∨
    (v ∈ S ∧ (g.node v).isAccepting = true) ∧ l = .epsilon ∧ w = t)
  (hacc : ∀ v, (h.node v).isAccepting = ((g.node v).isAccepting && decide (v ∉ S)))

include hT disjoint hdest hacc in
/-- The second part accepts what it accepted: nothing leads out of it, and nothing in it has
changed. -/
theorem languageFrom_series_second {v : Vertex} (hv : v ∈ T) :
    h.languageFrom v = g.languageFrom v := by
  apply languageFrom_congr (P := (· ∈ T)) hT
  · intro v hv l
    ext w
    rw [hdest]
    exact or_iff_left fun h => disjoint v h.1.1 hv
  · intro v hv
    have hnot : v ∉ S := fun h => disjoint v h hv
    rw [hacc, decide_eq_true hnot, Bool.and_true]
  · exact hv

/-- The family of languages that bounds what is accepted in series: from the first part both parts
have to be passed, from the second one only that one. -/
def inSeries (g : Graph) (S : VertexSet) (t v : Vertex) : Language Label :=
  if v ∈ S then g.languageFrom v * g.languageFrom t else g.languageFrom v

include hS hT disjoint ht hdest hacc in
/-- The family is closed against all edges, old and new. An old edge stays in its part, and a new
one leads from a word of the first part that is complete to a word of the second. -/
theorem languageFrom_le_inSeries {v : Vertex} (hv : v ∈ S) :
    h.languageFrom v ≤ inSeries g S t v := by
  have hfirst : ∀ v, v ∈ S → inSeries g S t v = g.languageFrom v * g.languageFrom t :=
    fun v hv => if_pos hv
  have hsecond : ∀ v, v ∉ S → inSeries g S t v = g.languageFrom v := fun v hv => if_neg hv
  apply languageFrom_le_family (P := fun v => v ∈ S ∨ v ∈ T) (F := inSeries g S t)
  · intro v hv l w hw
    rcases (hdest v l w).1 hw with hw | ⟨_, _, rfl⟩
    · rcases hv with hv | hv
      · exact Or.inl (hS v hv l w hw)
      · exact Or.inr (hT v hv l w hw)
    · exact Or.inr ht
  · intro v _ hv'
    rw [hacc, Bool.and_eq_true, decide_eq_true_eq] at hv'
    rw [hsecond v hv'.2]
    exact nil_mem_languageFrom hv'.1
  · intro v hv l w hw word hword
    rcases (hdest v l w).1 hw with hw | ⟨⟨hvS, hva⟩, rfl, rfl⟩
    -- an old edge stays in its part
    · by_cases hvS : v ∈ S
      · rw [hfirst w (hS v hvS l w hw)] at hword
        obtain ⟨x, hx, y, hy, rfl⟩ := Language.mem_mul.1 hword
        rw [hfirst v hvS, ← List.append_assoc]
        exact Language.append_mem_mul (append_mem_languageFrom (.single hw) hx) hy
      · have hwT : w ∉ S := fun h => disjoint w h (hT v (hv.resolve_left hvS) l w hw)
        rw [hsecond w hwT] at hword
        rw [hsecond v hvS]
        exact append_mem_languageFrom (.single hw) hword
    -- a new one starts where the first part is complete
    · rw [hsecond w fun h => disjoint w h ht] at hword
      rw [hfirst v hvS]
      exact Language.append_mem_mul (nil_mem_languageFrom hva) hword
  · exact Or.inl hv

include hS hT disjoint ht hdest hacc in
/-- The first part accepts what it accepted, followed by what the second one accepts. Every word is
of this form by the family above; conversely a word of the first part ends where a new edge starts,
and the rest is read behind that edge. -/
theorem languageFrom_series {v : Vertex} (hv : v ∈ S) :
    h.languageFrom v = g.languageFrom v * g.languageFrom t := by
  apply le_antisymm
  · have hle := languageFrom_le_inSeries hS hT disjoint ht hdest hacc hv
    rwa [inSeries, if_pos hv] at hle
  · intro word hword
    obtain ⟨x, hx, y, hy, rfl⟩ := Language.mem_mul.1 hword
    obtain ⟨u, hu, hpath, hacc'⟩ := exists_path_within hS hv hx
    rw [← languageFrom_series_second hT disjoint hdest hacc ht] at hy
    have hbridge : t ∈ h.destinations u .epsilon := (hdest u _ t).2 (Or.inr ⟨⟨hu, hacc'⟩, rfl, rfl⟩)
    have hold : Path h v x u := hpath.mono fun v l w hw => (hdest v l w).2 (Or.inl hw)
    exact append_mem_languageFrom hold (languageFrom_le_of_mem_destinations hbridge hy)

end Series

/-! ## As a choice -/

section Choice

variable {S : VertexSet} {r t : Vertex}
  (hS : ∀ v ∈ S, ∀ l, ∀ w ∈ g.destinations v l, w ∈ S)
  (hback : ∀ v ∈ S, ∀ l, r ∉ g.destinations v l) (ht : t ∈ S) (hne : t ≠ r)
  (hdest : ∀ v l w, w ∈ h.destinations v l ↔ w ∈ g.destinations v l ∨
    v = r ∧ l = .epsilon ∧ w = t)
  (hacc : ∀ v, (h.node v).isAccepting = (g.node v).isAccepting)

include hS hback hdest hacc in
/-- All other states accept what they accepted, since nothing leads back to the state with the new
edge. -/
theorem languageFrom_choice_of_ne {v : Vertex} (hv : v ∈ S) (hvr : v ≠ r) :
    h.languageFrom v = g.languageFrom v := by
  apply languageFrom_congr (P := fun v => v ∈ S ∧ v ≠ r)
  · rintro v ⟨hv, _⟩ l w hw
    refine ⟨hS v hv l w hw, ?_⟩
    rintro rfl
    exact hback v hv l hw
  · rintro v ⟨_, hvr⟩ l
    ext w
    rw [hdest]
    exact or_iff_left fun h => hvr h.1
  · exact fun v _ => hacc v
  · exact ⟨hv, hvr⟩

include hS hback ht hne hdest hacc in
/-- The state that got the edge accepts also what is accepted behind it. The bound from above is
what it accepted itself, together with that, and at all other states what these accepted. -/
theorem languageFrom_choice (hr : r ∈ S) :
    h.languageFrom r = g.languageFrom r + g.languageFrom t := by
  have hsame : ∀ v ∈ S, v ≠ r → h.languageFrom v = g.languageFrom v :=
    fun v => languageFrom_choice_of_ne hS hback hdest hacc
  ext word
  rw [Language.mem_add, mem_languageFrom_iff_edge, mem_languageFrom_iff_edge (g := g), hacc]
  constructor
  · rintro (hnil | ⟨l, w, hw, rest, hrest, rfl⟩)
    · exact Or.inl (Or.inl hnil)
    · rcases (hdest r l w).1 hw with hw | ⟨_, rfl, rfl⟩
      · -- no edge comes back, so behind the first one nothing has changed
        have hwr : w ≠ r := by
          rintro rfl
          exact hback w hr l hw
        rw [hsame w (hS r hr l w hw) hwr] at hrest
        exact Or.inl (Or.inr ⟨l, w, hw, rest, hrest, rfl⟩)
      · rw [hsame w ht hne] at hrest
        exact Or.inr hrest
  · rintro ((hnil | ⟨l, w, hw, rest, hrest, rfl⟩) | hword)
    · exact Or.inl hnil
    · have hwr : w ≠ r := by
        rintro rfl
        exact hback w hr l hw
      rw [← hsame w (hS r hr l w hw) hwr] at hrest
      exact Or.inr ⟨l, w, (hdest r l w).2 (Or.inl hw), rest, hrest, rfl⟩
    · rw [← hsame t ht hne] at hword
      exact Or.inr ⟨.epsilon, t, (hdest r _ t).2 (Or.inr ⟨rfl, rfl, rfl⟩), word, hword, rfl⟩

end Choice

/-! ## As a loop -/

section Loop

variable {S : VertexSet} {r : Vertex}
  (hS : ∀ v ∈ S, ∀ l, ∀ w ∈ g.destinations v l, w ∈ S) (hr : r ∈ S)
  (hdest : ∀ v l w, w ∈ h.destinations v l ↔ w ∈ g.destinations v l ∨
    (v ∈ S ∧ (g.node v).isAccepting = true) ∧ l = .epsilon ∧ w = r)

include hdest in
/-- The old edges are among those of the loop. -/
theorem destinations_sub_loop (v : Vertex) (l : Label) :
    ∀ w ∈ g.destinations v l, w ∈ h.destinations v l :=
  fun w hw => (hdest v l w).2 (Or.inl hw)

include hS hr hdest in
/-- No edge leads out of the part, old or new, as a new one leads back to a state of it. -/
theorem closed_loop : ∀ v ∈ S, ∀ l, ∀ w ∈ h.destinations v l, w ∈ S := by
  intro v hv l w hw
  rcases (hdest v l w).1 hw with hw | ⟨_, _, rfl⟩
  · exact hS v hv l w hw
  · exact hr

include hS hr hdest in
/-- What is accepted can be followed by any number of rounds. By induction on the rounds: each ends
in a state that accepted, and from there a new edge leads to where the next one begins. -/
theorem mul_kstar_le_loop (hacc : ∀ v ∈ S, (g.node v).isAccepting = true →
    (h.node v).isAccepting = true) {v : Vertex} (hv : v ∈ S) :
    g.languageFrom v * (g.languageFrom r)∗ ≤ h.languageFrom v := by
  intro word hword
  obtain ⟨x, hx, y, hy, rfl⟩ := Language.mem_mul.1 hword
  obtain ⟨rounds, rfl, hrounds⟩ := Language.mem_kstar.1 hy
  clear hy hword
  -- one round after the other; the last one ends in an accepting state
  induction rounds generalizing v x with
  | nil =>
    obtain ⟨u, hu, hpath, hu'⟩ := exists_path_within hS hv hx
    rw [List.flatten_nil, List.append_nil]
    exact ⟨u, hpath.mono (destinations_sub_loop hdest), hacc u hu hu'⟩
  | cons z rounds ih =>
    obtain ⟨u, hu, hpath, hu'⟩ := exists_path_within hS hv hx
    have hz : z ∈ g.languageFrom r := hrounds z List.mem_cons_self
    have hrest : z ++ rounds.flatten ∈ h.languageFrom r :=
      ih hr z hz fun y hy => hrounds y (List.mem_cons_of_mem z hy)
    have hback : r ∈ h.destinations u .epsilon := (hdest u _ r).2 (Or.inr ⟨⟨hu, hu'⟩, rfl, rfl⟩)
    rw [List.flatten_cons]
    exact append_mem_languageFrom (hpath.mono (destinations_sub_loop hdest))
      (languageFrom_le_of_mem_destinations hback hrest)

include hS hr hdest in
/-- A part that loops accepts what it accepted, followed by any number of rounds. The family that
bounds it from above is this very product, at every state of the part. -/
theorem languageFrom_loop (hacc : ∀ v, (h.node v).isAccepting = (g.node v).isAccepting)
    {v : Vertex} (hv : v ∈ S) :
    h.languageFrom v = g.languageFrom v * (g.languageFrom r)∗ := by
  apply le_antisymm
  · apply languageFrom_le_family (P := (· ∈ S)) (closed_loop hS hr hdest)
      (F := fun v => g.languageFrom v * (g.languageFrom r)∗)
    · intro v _ hv
      rw [hacc] at hv
      exact Language.append_mem_mul (nil_mem_languageFrom hv) (Language.nil_mem_kstar _)
    · intro v _ l w hw word hword
      -- either the round goes on or a new one starts
      rcases (hdest v l w).1 hw with hw | ⟨⟨_, hva⟩, rfl, rfl⟩
      · obtain ⟨x, hx, y, hy, rfl⟩ := Language.mem_mul.1 hword
        rw [← List.append_assoc]
        exact Language.append_mem_mul (append_mem_languageFrom (.single hw) hx) hy
      · have hrounds : word ∈ (g.languageFrom w)∗ :=
          mul_kstar_le_kstar (a := g.languageFrom w) hword
        exact Language.append_mem_mul (nil_mem_languageFrom hva) hrounds
    · exact hv
  · apply mul_kstar_le_loop hS hr hdest
    · intro v _ hv
      rw [hacc, hv]
    · exact hv

/-- The family of languages that bounds what a loop accepts whose state itself accepts: at that
state no round needs to be completed. -/
def inRounds (g : Graph) (r v : Vertex) : Language Label :=
  if v = r then (g.languageFrom r)∗ else g.languageFrom v * (g.languageFrom r)∗

/-- What is left of a round may be followed by any number of rounds, at the state itself as well. -/
theorem mul_kstar_le_inRounds (g : Graph) (r v : Vertex) :
    g.languageFrom v * (g.languageFrom r)∗ ≤ inRounds g r v := by
  by_cases hv : v = r
  · rw [inRounds, if_pos hv, hv]
    exact mul_kstar_le_kstar
  · rw [inRounds, if_neg hv]

include hS hr hdest in
/-- The family is closed against all edges, old and new. The one edge that could break it is an old
one that comes back to the state: the round is then complete without having been accepted, unless
the state accepted before. -/
theorem languageFrom_le_inRounds
    (hacc : ∀ v, (h.node v).isAccepting = ((g.node v).isAccepting || decide (v = r)))
    (hback : (g.node r).isAccepting = true ∨ ∀ v ∈ S, ∀ l, r ∉ g.destinations v l) :
    h.languageFrom r ≤ inRounds g r r := by
  have hround : inRounds g r r = (g.languageFrom r)∗ := if_pos rfl
  apply languageFrom_le_family (P := (· ∈ S)) (F := inRounds g r) (closed_loop hS hr hdest)
  · intro v _ hv
    rw [hacc, Bool.or_eq_true, decide_eq_true_eq] at hv
    rcases hv with hv | rfl
    · exact mul_kstar_le_inRounds g r v
        (Language.append_mem_mul (nil_mem_languageFrom hv) (Language.nil_mem_kstar _))
    · rw [hround]
      exact Language.nil_mem_kstar _
  · intro v hv l w hw word hword
    apply mul_kstar_le_inRounds g r v
    rcases (hdest v l w).1 hw with hw | ⟨⟨_, hva⟩, rfl, rfl⟩
    -- an old edge that comes back to the state: the round ends here, and accepts if the state does
    · by_cases hwr : w = r
      · rw [hwr, hround] at hword
        rcases hback with hra | hback
        · have hempty : l.word ++ [] ∈ g.languageFrom v :=
            append_mem_languageFrom (.single hw) (nil_mem_languageFrom (hwr ▸ hra))
          rw [List.append_nil] at hempty
          exact Language.append_mem_mul hempty hword
        · exact absurd (hwr ▸ hw) (hback v hv l)
      · rw [inRounds, if_neg hwr] at hword
        obtain ⟨x, hx, y, hy, rfl⟩ := Language.mem_mul.1 hword
        rw [← List.append_assoc]
        exact Language.append_mem_mul (append_mem_languageFrom (.single hw) hx) hy
    -- a new edge starts where a round was accepted
    · rw [hround] at hword
      exact Language.append_mem_mul (nil_mem_languageFrom hva) hword
  · exact hr

include hS hr hdest in
/-- If the part cannot come back to the state without accepting there, then making the state
accept adds the empty word and nothing else. -/
theorem languageFrom_loop_accepting
    (hacc : ∀ v, (h.node v).isAccepting = ((g.node v).isAccepting || decide (v = r)))
    (hback : (g.node r).isAccepting = true ∨ ∀ v ∈ S, ∀ l, r ∉ g.destinations v l) :
    h.languageFrom r = (g.languageFrom r)∗ := by
  apply le_antisymm
  · have hle := languageFrom_le_inRounds hS hr hdest hacc hback
    rwa [inRounds, if_pos rfl] at hle
  · have hra : (h.node r).isAccepting = true := by
      rw [hacc]
      simp
    have hrounds : g.languageFrom r * (g.languageFrom r)∗ ≤ h.languageFrom r := by
      apply mul_kstar_le_loop hS hr hdest
      · intro v _ hv
        rw [hacc, hv]
        rfl
      · exact hr
    intro word hword
    -- no round at all is read by the state itself, more rounds by the loop
    rw [← Language.one_add_self_mul_kstar_eq_kstar] at hword
    rcases hword with hnil | hword
    · rw [(Language.mem_one word).1 hnil]
      exact nil_mem_languageFrom hra
    · exact hrounds hword

end Loop

end PatternAutomata.Graph
