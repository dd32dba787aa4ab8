/-
Removing the edges that read nothing keeps what every state accepts.

While a state is treated, some targets have been folded into it already. What carries the
argument is that the state can do what each of them can (`Folding`): every edge out of a
folded target is answered by an edge out of the state that leads to the same place, or
back to the state where the target would be led to a folded one; and an edge that reads
nothing may be left out if it leads to a folded target. So an edge from the state to a
folded target is not needed, which is the one place where edges are lost. Folding itself
only adds edges that a detour over the target could answer before.

Collecting takes out states that nothing kept leads to, so it changes nothing of this.
-/
import PatternAutomata.Automaton.Epsilon
import PatternAutomata.Proofs.Structure.Collecting
import PatternAutomata.Proofs.Words.Simulation

set_option autoImplicit false

namespace PatternAutomata

open PatternAutomata.Graph

/-! ## Edits that keep words -/

namespace Machine

/-- An edit within the automaton after which each state that is left accepts what it
accepted before, and so does the automaton. -/
structure KeepsWords (m m' : Machine) : Prop extends m.Reworks m' where
  languageFrom_eq : ∀ v ∈ m'.automaton.states, m'.graph.languageFrom v = m.graph.languageFrom v
  language_eq : m'.automaton.language m'.graph = m.automaton.language m.graph

variable {m m' m'' : Machine}

theorem KeepsWords.refl (hm : m.automaton.Sound m.graph) : m.KeepsWords m :=
  ⟨.refl hm, fun _ _ => rfl, rfl⟩

/-- Edits that keep words can follow each other. Which states are left may shrink from one to the
next. -/
theorem KeepsWords.trans (h : m.KeepsWords m') (h' : m'.KeepsWords m'') : m.KeepsWords m'' where
  toReworks := h.toReworks.trans h'.toReworks
  languageFrom_eq v hv :=
    (h'.languageFrom_eq v hv).trans (h.languageFrom_eq v (h'.states_sub v hv))
  language_eq := h'.language_eq.trans h.language_eq

/-- Taking states out keeps what the others accept, since no edge leads from what is kept to what
goes. -/
theorem Prunes.keepsWords (h : m.Prunes m') : m.KeepsWords m' := by
  have hlang : ∀ v ∈ m'.automaton.states, m'.graph.languageFrom v = m.graph.languageFrom v := by
    intro v hv
    apply languageFrom_congr (P := (· ∈ m'.automaton.states))
    · intro u hu l w hw
      rw [← h.destinations_eq u hu] at hw
      exact h.sound.target_mem hu hw
    · exact h.destinations_eq
    · intro u _
      exact isAccepting_eq_of_shell_eq (h.shell_eq u)
    · exact hv
  refine ⟨h.toReworks, hlang, ?_⟩
  rw [Automaton.language, Automaton.language, hlang _ h.sound.start_mem, h.start_eq]

end Machine

/-! ## What a state can do after folding -/

/-- A state can do what each of some folded targets can. -/
structure Folding (g : Graph) (states : VertexSet) (v : Vertex) (done : VertexSet) : Prop where
  not_mem : v ∉ done
  edge : ∀ d ∈ done, d ∈ states → ∀ l, ∀ w ∈ g.destinations d l,
    (∃ x ∈ g.destinations v l, w = x ∨ w ∈ done ∧ x = v) ∨ l = .epsilon ∧ (w = v ∨ w ∈ done)
  accept : ∀ d ∈ done, d ∈ states → (g.node d).isAccepting = true →
    (g.node v).isAccepting = true

namespace Folding

variable {g h : Graph} {states : VertexSet} {v t : Vertex} {done : VertexSet}

/-- Nothing is folded into a state at first. -/
theorem empty (g : Graph) (states : VertexSet) (v : Vertex) : Folding g states v ∅ where
  not_mem := OrdSet.not_mem_empty v
  edge d hd := absurd hd (OrdSet.not_mem_empty d)
  accept d hd := absurd hd (OrdSet.not_mem_empty d)

/-- Folding does not depend on states that are taken out: what is said of it is said of states that
are kept and their edges. -/
theorem congr (hf : Folding g states v done) {kept : VertexSet} (hv : v ∈ kept)
    (sub : ∀ u ∈ kept, u ∈ states)
    (destinations_eq : ∀ u ∈ kept, ∀ l, h.destinations u l = g.destinations u l)
    (isAccepting_eq : ∀ u ∈ kept, (h.node u).isAccepting = (g.node u).isAccepting) :
    Folding h kept v done where
  not_mem := hf.not_mem
  edge d hd hk l w hw := by
    rw [destinations_eq d hk] at hw
    rw [destinations_eq v hv]
    exact hf.edge d hd (sub d hk) l w hw
  accept d hd hk hacc := by
    rw [isAccepting_eq d hk] at hacc
    rw [isAccepting_eq v hv]
    exact hf.accept d hd (sub d hk) hacc

section Cutting

variable (hdest : ∀ u l w, w ∈ h.destinations u l ↔
    w ∈ g.destinations u l ∧ (⟨u, l, w⟩ : Edge) ≠ ⟨v, .epsilon, t⟩)
  (hacc : ∀ u, (h.node u).isAccepting = (g.node u).isAccepting) (ht : t = v ∨ t ∈ done)

include hdest hacc ht

/-- An edge that reads nothing is still answered without the one that is removed. The answers
themselves are edges out of the state, and the one that is removed is no answer that is needed. -/
theorem cut (hf : Folding g states v done) : Folding h states v done where
  not_mem := hf.not_mem
  edge d hd hs l w hw := by
    rcases hf.edge d hd hs l w ((hdest d l w).1 hw).1 with ⟨x, hx, hwx⟩ | heps
    · by_cases he : (⟨v, l, x⟩ : Edge) = ⟨v, .epsilon, t⟩
      · -- the answer was the removed edge, so its end is folded
        obtain ⟨-, rfl, rfl⟩ := Edge.mk.inj he
        refine Or.inr ⟨rfl, ?_⟩
        rcases hwx with rfl | ⟨hw', _⟩
        · exact ht
        · exact Or.inr hw'
      · exact Or.inl ⟨x, (hdest v l x).2 ⟨hx, he⟩, hwx⟩
    · exact Or.inr heps
  accept d hd hs h := by
    rw [hacc] at h ⊢
    exact hf.accept d hd hs h

/-- Without an edge that reads nothing and leads to a folded target, or nowhere else, every state
accepts what it accepted. In the direction that needs an argument, the larger graph is simulated by
the smaller one, each folded target being answered by itself and by the state. -/
theorem languageFrom_cut (hf : Folding g states v done)
    (closed : ∀ u ∈ states, ∀ l, ∀ w ∈ g.destinations u l, w ∈ states) {u : Vertex}
    (hu : u ∈ states) : h.languageFrom u = g.languageFrom u := by
  apply le_antisymm
  · apply languageFrom_mono
    · intro u hacc'
      rwa [hacc] at hacc'
    · intro u l w hw
      exact ((hdest u l w).1 hw).1
  · -- a folded target is answered by itself and by the state
    apply languageFrom_le_of_simulation (R := fun x y =>
      x ∈ states ∧ (x = y ∨ x ∈ done ∧ y = v))
    · rintro x y ⟨hx, rfl | ⟨hd, rfl⟩⟩ hx'
      · rw [← hacc] at hx'
        exact nil_mem_languageFrom hx'
      · have hv := hf.accept x hd hx hx'
        rw [← hacc] at hv
        exact nil_mem_languageFrom hv
    · rintro x y ⟨hx, hxy⟩ l w hw
      have hws := closed x hx l w hw
      rcases hxy with rfl | ⟨hd, rfl⟩
      · -- a missing edge is answered by staying, for its end is folded into the state
        by_cases he : (⟨x, l, w⟩ : Edge) = ⟨v, .epsilon, t⟩
        · obtain ⟨rfl, rfl, rfl⟩ := Edge.mk.inj he
          refine ⟨x, .stay x, hws, ?_⟩
          rcases ht with rfl | hd
          · exact Or.inl rfl
          · exact Or.inr ⟨hd, rfl⟩
        · exact ⟨w, .single ((hdest x l w).2 ⟨hw, he⟩), hws, Or.inl rfl⟩
      -- the edge is another one than that which is missing, as the state is not folded into itself
      · have hkept : w ∈ h.destinations x l := by
          refine (hdest x l w).2 ⟨hw, fun he => ?_⟩
          obtain ⟨rfl, _⟩ := Edge.mk.inj he
          exact hf.not_mem hd
        rcases (hf.cut hdest hacc ht).edge x hd hx l w hkept with ⟨z, hz, hwz⟩ | ⟨rfl, hwv⟩
        · refine ⟨z, .single hz, hws, ?_⟩
          rcases hwz with rfl | ⟨hw', rfl⟩
          · exact Or.inl rfl
          · exact Or.inr ⟨hw', rfl⟩
        · refine ⟨y, .stay y, hws, ?_⟩
          rcases hwv with rfl | hw'
          · exact Or.inl rfl
          · exact Or.inr ⟨hw', rfl⟩
    · exact ⟨hu, Or.inl rfl⟩

end Cutting

section Copying

variable {f : Vertex → Vertex}
  (hdest : ∀ u l w, w ∈ h.destinations u l ↔
    w ∈ g.destinations u l ∨ u = v ∧ ∃ x ∈ g.destinations t l, f x = w)
  (hacc : ∀ u, (h.node u).isAccepting =
    ((g.node u).isAccepting || (u = v && (g.node t).isAccepting)))

include hdest hacc

/-- After a target was copied onto the state, the state can do what that target can, too. For
targets that were folded in before nothing changes, since their own edges are not touched. -/
theorem copy (hf : Folding g states v done) (hne : t ≠ v)
    (hfold : ∀ x, f x = x ∨ x = t ∧ f x = v) : Folding h states v (done.insert t) where
  not_mem hmem := by
    rcases OrdSet.mem_insert.1 hmem with rfl | hmem
    · exact hne rfl
    · exact hf.not_mem hmem
  edge d hd hs l w hw := by
    have hdv : d ≠ v := by
      rintro rfl
      rcases OrdSet.mem_insert.1 hd with rfl | hd
      · exact hne rfl
      · exact hf.not_mem hd
    -- the edges of what is folded in are old ones
    have hold : w ∈ g.destinations d l := by
      rcases (hdest d l w).1 hw with hw | ⟨rfl, _⟩
      · exact hw
      · exact absurd rfl hdv
    rcases OrdSet.mem_insert.1 hd with rfl | hd
    · refine Or.inl ⟨f w, (hdest v l _).2 (Or.inr ⟨rfl, w, hold, rfl⟩), ?_⟩
      rcases hfold w with hw' | ⟨rfl, hw'⟩
      · exact Or.inl hw'.symm
      · exact Or.inr ⟨OrdSet.mem_insert.2 (Or.inl rfl), hw'⟩
    · rcases hf.edge d hd hs l w hold with ⟨x, hx, hwx⟩ | ⟨hl, hwv⟩
      · refine Or.inl ⟨x, (hdest v l x).2 (Or.inl hx), ?_⟩
        rcases hwx with hwx | ⟨hw', hx'⟩
        · exact Or.inl hwx
        · exact Or.inr ⟨OrdSet.mem_insert.2 (Or.inr hw'), hx'⟩
      · refine Or.inr ⟨hl, ?_⟩
        rcases hwv with hwv | hw'
        · exact Or.inl hwv
        · exact Or.inr (OrdSet.mem_insert.2 (Or.inr hw'))
  accept d hd hs hd' := by
    have hdv : d ≠ v := by
      rintro rfl
      rcases OrdSet.mem_insert.1 hd with rfl | hd
      · exact hne rfl
      · exact hf.not_mem hd
    rw [hacc] at hd' ⊢
    rcases OrdSet.mem_insert.1 hd with rfl | hd
    · have hd'' : (g.node d).isAccepting = true := by simpa [hdv] using hd'
      simp [hd'']
    · have hd'' : (g.node d).isAccepting = true := by simpa [hdv] using hd'
      simp [hf.accept d hd hs hd'']

/-- Copying adds edges and acceptance, so nothing is lost. -/
theorem languageFrom_le_copy (u : Vertex) : g.languageFrom u ≤ h.languageFrom u := by
  apply languageFrom_mono
  · intro u hu
    rw [hacc, hu]
    rfl
  · intro u l w hw
    exact (hdest u l w).2 (Or.inl hw)

/-- Copying a state onto one that can do all that it can changes nothing that is accepted, if
targets are replaced by such that can do no more than they can. What was accepted before is a family
that is closed against the new edges. -/
theorem languageFrom_copy (hle : g.languageFrom t ≤ g.languageFrom v)
    (hf : ∀ x, g.languageFrom (f x) ≤ g.languageFrom x) (u : Vertex) :
    h.languageFrom u = g.languageFrom u := by
  -- what was accepted is closed against the copied edges, wherever they lead
  refine le_antisymm ?_ (languageFrom_le_copy hdest hacc u)
  apply languageFrom_le_family (P := fun _ => True)
  · exact fun _ _ _ _ _ => trivial
  · intro u _ hu
    rw [hacc, Bool.or_eq_true, Bool.and_eq_true, decide_eq_true_eq] at hu
    rcases hu with hu | ⟨rfl, hu⟩
    · exact nil_mem_languageFrom hu
    · exact hle (nil_mem_languageFrom hu)
  · intro u _ l w hw word hword
    rcases (hdest u l w).1 hw with hw | ⟨rfl, x, hx, rfl⟩
    · exact append_mem_languageFrom (.single hw) hword
    · exact hle (append_mem_languageFrom (.single hx) (hf x hword))
  · trivial

end Copying

/-- Copying a target as it is onto a state from which it is reached without reading changes
nothing that is accepted. -/
theorem languageFrom_absorb (ht : t ∈ g.destinations v .epsilon)
    (hdest : ∀ u l w, w ∈ h.destinations u l ↔
      w ∈ g.destinations u l ∨ u = v ∧ ∃ x ∈ g.destinations t l, id x = w)
    (hacc : ∀ u, (h.node u).isAccepting =
      ((g.node u).isAccepting || (u = v && (g.node t).isAccepting))) (u : Vertex) :
    h.languageFrom u = g.languageFrom u :=
  languageFrom_copy hdest hacc (languageFrom_le_of_mem_destinations ht) (fun _ => le_rfl) u

section Merging

variable (honly : ∀ l w, w ∈ g.destinations v l ↔ l = .epsilon ∧ w = t)
  (halias : (g.node v).isAccepting = true → (g.node t).isAccepting = true)

include honly halias

/-- A state whose only way on reads nothing accepts what its target accepts, if it does not accept
where the target does not. -/
theorem languageFrom_alias : g.languageFrom v = g.languageFrom t := by
  apply le_antisymm
  · intro word hword
    rcases mem_languageFrom_iff_edge.1 hword with ⟨rfl, hacc⟩ | ⟨l, w, hw, rest, hrest, rfl⟩
    · exact nil_mem_languageFrom (halias hacc)
    · obtain ⟨rfl, rfl⟩ := (honly l w).1 hw
      exact hrest
  · exact languageFrom_le_of_mem_destinations ((honly _ t).2 ⟨rfl, rfl⟩)

/-- Merging such a target into the state changes nothing that is accepted, although edges
from the target to itself come to lead from the state to itself. -/
theorem languageFrom_merge
    (hdest : ∀ u l w, w ∈ h.destinations u l ↔
      w ∈ g.destinations u l ∨ u = v ∧ ∃ x ∈ g.destinations t l, (if x = t then v else x) = w)
    (hacc : ∀ u, (h.node u).isAccepting =
      ((g.node u).isAccepting || (u = v && (g.node t).isAccepting))) (u : Vertex) :
    h.languageFrom u = g.languageFrom u := by
  have hsame := languageFrom_alias honly halias
  apply languageFrom_copy hdest hacc hsame.ge
  intro x
  split
  · next hx => rw [hx, hsame]
  · exact le_rfl

end Merging

end Folding

end PatternAutomata
