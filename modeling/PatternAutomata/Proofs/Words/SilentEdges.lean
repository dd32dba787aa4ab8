/-
Removing the edges that read nothing keeps what every state accepts, and leaves none.

While a state is treated, the states that it can reach without reading fall into three
kinds: the state itself, those that are still to be folded into it, and those that have
been (`Treating`). A target that is still to be folded is folded before its edge is
disconnected, so every edge that is lost leads to the state itself or to a folded target,
and no words are lost with it (`Folding.languageFrom_cut`).

The edges out of all other states that are kept do not change, so a state that was treated
once needs no further treatment.
-/
import PatternAutomata.Proofs.Structure.Joining
import PatternAutomata.Proofs.Words.Folding

set_option autoImplicit false

namespace PatternAutomata

open PatternAutomata.Graph

/-! ## Work on one state -/

namespace Machine

/-- An edit that keeps words and changes the edges out of one state at most. -/
structure Treats (m m' : Machine) (v : Vertex) : Prop extends m.KeepsWords m' where
  others_eq : ∀ u ∈ m'.automaton.states, u ≠ v → ∀ l,
    m'.graph.destinations u l = m.graph.destinations u l

variable {m m' m'' : Machine} {v target : Vertex}

/-- Doing nothing treats any state. -/
theorem Treats.refl (hm : m.automaton.Sound m.graph) (v : Vertex) : m.Treats m v :=
  ⟨.refl hm, fun _ _ _ _ => rfl⟩

/-- Edits that treat the same state treat it together. -/
theorem Treats.trans (h : m.Treats m' v) (h' : m'.Treats m'' v) : m.Treats m'' v where
  toKeepsWords := h.toKeepsWords.trans h'.toKeepsWords
  others_eq u hu hne l :=
    (h'.others_eq u hu hne l).trans (h.others_eq u (h'.states_sub u hu) hne l)

/-! ## Folding a target in -/

/-- The table of an alias leads to its target without reading and nowhere else: it has one entry
only, which holds the target only. -/
theorem destinations_of_isAlias {g : Graph} (h : isAlias g v target = true) (l : Label)
    (w : Vertex) : w ∈ g.destinations v l ↔ l = .epsilon ∧ w = target := by
  rw [isAlias, Bool.and_eq_true, decide_eq_true_eq] at h
  rw [destinations, Table.under, OrdMap.get?, h.1, OrdMap.lookup_cons_eq_ite]
  by_cases hl : l = .epsilon
  · rw [if_pos hl, Option.getD_some, OrdSet.mem_singleton]
    exact (and_iff_right hl).symm
  · rw [if_neg hl]
    exact iff_of_false (OrdSet.not_mem_empty w) fun h => hl h.1

/-- An alias accepts nothing that its target does not: it may accept only if its target accepts. -/
theorem isAccepting_of_isAlias {g : Graph} (h : isAlias g v target = true)
    (hacc : (g.node v).isAccepting = true) : (g.node target).isAccepting = true := by
  rw [isAlias, Bool.and_eq_true, hacc] at h
  simpa using h.2

/-- A target was folded in: nothing is lost, the target counts as folded, and a new edge of
the state leads where an edge of the target led, or back to the state. -/
structure FoldedIn (m m' : Machine) (v target : Vertex) (done : VertexSet) : Prop where
  treats : m.Treats m' v
  states_eq : m'.automaton.states = m.automaton.states
  folding : Folding m'.graph m'.automaton.states v (done.insert target)
  origin : ∀ w ∈ m'.graph.destinations v .epsilon,
    w ∈ m.graph.destinations v .epsilon ∨ w = v ∨ w ∈ m.graph.destinations target .epsilon

/-- Merging folds in the target of a state that stands for it: the only edge of the state leads
there without reading. So the state accepts exactly what its target does, and taking the edges of
the target over to it changes nothing. If the target was the start state, the start moves to the
state and the same words are accepted from there. A loop of the target becomes a loop of the state,
so the new edges lead back to the state itself at worst. -/
theorem foldedIn_merge (hm : m.automaton.Sound m.graph) (hv : v ∈ m.automaton.states)
    (htarget : target ∈ m.automaton.states) (hne : target ≠ v) {done : VertexSet}
    (hf : Folding m.graph m.automaton.states v done) (halias : isAlias m.graph v target = true) :
    ∃ m', m.merge target v = .ok () m' ∧ m.FoldedIn m' v target done := by
  have honly := destinations_of_isAlias halias
  have hlike := isAccepting_of_isAlias halias
  obtain ⟨m', hmerge, hworks, hstates, hstart, hdest, hacc⟩ := merge_spec hm htarget hv hne
  have hlang := Folding.languageFrom_merge honly hlike hdest hacc
  refine ⟨m', hmerge, ?_, hstates, ?_, ?_⟩
  · refine ⟨⟨hworks, fun u _ => hlang u, ?_⟩, ?_⟩
    · rw [Automaton.language, Automaton.language, hlang, hstart]
      by_cases hmoved : target = m.automaton.start
      · -- the start has moved to the state, which accepts what its target does
        rw [if_pos hmoved, ← hmoved]
        exact Folding.languageFrom_alias honly hlike
      · rw [if_neg hmoved]
    · intro u _ huv l
      ext w
      rw [hdest]
      exact or_iff_left fun h => huv h.1
  · rw [hstates]
    apply hf.copy hdest hacc hne
    intro x
    by_cases hx : x = target
    · rw [if_pos hx]
      exact Or.inr ⟨hx, rfl⟩
    · rw [if_neg hx]
      exact Or.inl rfl
  · intro w hw
    rcases (hdest v _ w).1 hw with hw | ⟨-, x, hx, rfl⟩
    · exact Or.inl hw
    -- a loop of the target has become one of the state
    · by_cases hxt : x = target
      · rw [if_pos hxt]
        exact Or.inr (Or.inl rfl)
      · rw [if_neg hxt]
        exact Or.inr (Or.inr hx)

/-- Absorbing folds in any target that an edge leads to without reading. The state gets copies of
the edges of the target; the target itself keeps its edges and stays where it is, since other states
may lead to it. -/
theorem foldedIn_absorb (hm : m.automaton.Sound m.graph) (hv : v ∈ m.automaton.states)
    (ht : target ∈ m.graph.destinations v .epsilon) (hne : target ≠ v) {done : VertexSet}
    (hf : Folding m.graph m.automaton.states v done) :
    m.FoldedIn (m.absorb target v) v target done := by
  have htarget : target ∈ m.automaton.states := hm.target_mem hv ht
  have hworks := reworks_absorb hm htarget hv
  -- the state gets the edges of the target, and accepts if the target does
  have hdest : ∀ u l w, w ∈ (m.absorb target v).graph.destinations u l ↔
      w ∈ m.graph.destinations u l ∨
        u = v ∧ ∃ x ∈ m.graph.destinations target l, id x = w := by
    intro u l w
    rw [absorb_eq hne, mem_destinations_copyOnto]
  have hacc : ∀ u, ((m.absorb target v).graph.node u).isAccepting =
      ((m.graph.node u).isAccepting || (u = v && (m.graph.node target).isAccepting)) := by
    intro u
    rw [absorb_eq hne, isAccepting_copyOnto]
  have hlang := Folding.languageFrom_absorb ht hdest hacc
  have hstates := states_absorb (hm.consistent.target_mem target htarget) hv
  have hstart : (m.absorb target v).automaton.start = m.automaton.start := by
    rw [absorb_eq hne, start_copyOnto]
  refine ⟨⟨⟨hworks, fun u _ => hlang u, ?_⟩, ?_⟩, hstates, ?_, ?_⟩
  · rw [Automaton.language, Automaton.language, hlang, hstart]
  · intro u _ huv l
    ext w
    rw [hdest]
    exact or_iff_left fun h => huv h.1
  · rw [hstates]
    exact hf.copy hdest hacc hne fun x => Or.inl rfl
  · -- a silent edge of the state is an old one or a copy of one of the target
    intro w hw
    rcases (hdest v _ w).1 hw with hw | ⟨-, x, hx, rfl⟩
    · exact Or.inl hw
    · exact Or.inr (Or.inr hx)

/-- Either way a target is folded in, whatever the counts of merged and absorbed targets are. -/
theorem foldIn_spec (hm : m.automaton.Sound m.graph) (hv : v ∈ m.automaton.states)
    (ht : target ∈ m.graph.destinations v .epsilon) (hne : target ≠ v) {done : VertexSet}
    (hf : Folding m.graph m.automaton.states v done) (n : FoldCount) :
    ∃ n' m', m.foldIn v target n = .ok n' m' ∧ m.FoldedIn m' v target done := by
  rw [foldIn]
  by_cases halias : isAlias m.graph v target = true
  · obtain ⟨m', hmerge, hfolded⟩ := foldedIn_merge hm hv (hm.target_mem hv ht) hne hf halias
    rw [if_pos halias, hmerge]
    exact ⟨_, m', rfl, hfolded⟩
  · rw [if_neg halias]
    exact ⟨_, _, rfl, foldedIn_absorb hm hv ht hne hf⟩

/-- An edge that reads nothing is disconnected after its target was folded in. A word that took the
edge can take a copy of an edge of the target instead, so no word is lost. Disconnecting may make
states unreachable, which are removed; what is left accepts what it accepted. -/
theorem disconnect_folded (hm : m.automaton.Sound m.graph) (hv : v ∈ m.automaton.states)
    (htarget : target ∈ m.automaton.states) {done : VertexSet}
    (ht : target = v ∨ target ∈ done) (hf : Folding m.graph m.automaton.states v done) :
    ∃ m' gone, m.disconnect ⟨v, .epsilon, target⟩ = .ok gone m' ∧ m.Treats m' v ∧
      (v ∈ m'.automaton.states → Folding m'.graph m'.automaton.states v done) ∧
      ∀ u ∈ m'.automaton.states, ∀ l, ∀ w ∈ m'.graph.destinations u l,
        w ∈ m.graph.destinations u l := by
  obtain ⟨g, m', gone, hcut, hworks, hprunes, hdest, hshell⟩ :=
    disconnect_spec hm (e := ⟨v, .epsilon, target⟩) hv htarget
  have hacc : ∀ u, (g.node u).isAccepting = (m.graph.node u).isAccepting :=
    fun u => isAccepting_eq_of_shell_eq (hshell u)
  have hclosed : ∀ u ∈ m.automaton.states, ∀ l, ∀ w ∈ m.graph.destinations u l,
      w ∈ m.automaton.states := fun u hu l w hw => hm.target_mem hu hw
  -- the target is folded in, so the edge is not missed by any word
  have hkeeps : m.KeepsWords { m with graph := g } :=
    ⟨hworks, fun u hu => hf.languageFrom_cut hdest hacc ht hclosed hu,
      hf.languageFrom_cut hdest hacc ht hclosed hm.start_mem⟩
  refine ⟨m', gone, hcut, ⟨hkeeps.trans hprunes.keepsWords, ?_⟩, ?_, ?_⟩
  · intro u hu huv l
    rw [hprunes.destinations_eq u hu]
    ext w
    rw [hdest]
    refine and_iff_left fun he => huv ?_
    exact (Edge.mk.inj he).1
  · intro hkept
    exact (hf.cut hdest hacc ht).congr hkept hprunes.states_sub hprunes.destinations_eq
      fun u _ => isAccepting_eq_of_shell_eq (hprunes.shell_eq u)
  · intro u hu l w hw
    rw [hprunes.destinations_eq u hu] at hw
    exact ((hdest u l w).1 hw).1

/-! ## The walk over the targets of one state -/

/-- How far the treatment of a state has come: the states that it can reach without reading
are itself, those still to be folded in, and those that have been. -/
structure Treating (m : Machine) (v : Vertex) (silent pending done : VertexSet) : Prop where
  sound : m.automaton.Sound m.graph
  kind : ∀ u ∈ silent, u = v ∨ u ∈ pending ∨ u ∈ done
  self_mem : v ∈ silent
  not_pending : v ∉ pending
  silent_closed : ∀ u ∈ silent, u ∈ m.automaton.states →
    ∀ w ∈ m.graph.destinations u .epsilon, w ∈ silent
  folding : v ∈ m.automaton.states → Folding m.graph m.automaton.states v done

/-- At first nothing is folded in, and all that can be reached without reading is pending, apart
from the state itself. -/
theorem treating_closure (hm : m.automaton.Sound m.graph) (v : Vertex) :
    m.Treating v (m.graph.closure {v}) ((m.graph.closure {v}).erase v) ∅ where
  sound := hm
  kind u hu := by
    by_cases huv : u = v
    · exact Or.inl huv
    · exact Or.inr (Or.inl (OrdSet.mem_erase.2 ⟨hu, huv⟩))
  self_mem := mem_closure_of_mem (OrdSet.mem_singleton.2 rfl)
  not_pending hmem := (OrdSet.mem_erase.1 hmem).2 rfl
  silent_closed u hu _ w hw := mem_closure_of_mem_destinations hu hw
  folding _ := .empty ..

/-- Folding a pending target in and disconnecting it takes it off the pending ones. The edges that
the state gets lead to states that its target reached without reading, or back to itself; these are
among the kinds already. So the kinds stay complete with the target moved from pending to folded. -/
theorem Treating.fold {silent pending done : VertexSet}
    (ht : m.Treating v silent pending done) (hv : v ∈ m.automaton.states)
    (htarget : target ∈ m.graph.destinations v .epsilon) (hpending : target ∈ pending)
    (n : FoldCount) :
    ∃ n' m' m'' gone, m.foldIn v target n = .ok n' m' ∧
      m'.disconnect ⟨v, .epsilon, target⟩ = .ok gone m'' ∧ m.Treats m'' v ∧
      m''.Treating v silent (pending.erase target) (done.insert target) := by
  have hne : target ≠ v := by
    rintro rfl
    exact ht.not_pending hpending
  have hsilent : target ∈ silent := ht.silent_closed v ht.self_mem hv target htarget
  have hstate : target ∈ m.automaton.states := ht.sound.target_mem hv htarget
  obtain ⟨n', m', hfold, htreats, hstates, hfolding, hnew⟩ :=
    foldIn_spec ht.sound hv htarget hne (ht.folding hv) n
  have hfolded : target ∈ done.insert target := OrdSet.mem_insert.2 (Or.inl rfl)
  obtain ⟨m'', gone, hcut, htreats', hfolding', hless⟩ :=
    disconnect_folded htreats.sound (hstates ▸ hv) (hstates ▸ hstate) (Or.inr hfolded) hfolding
  refine ⟨n', m', m'', gone, hfold, hcut, htreats.trans htreats', ?_⟩
  exact {
    sound := htreats'.sound
    kind := by
      intro u hu
      by_cases hut : u = target
      · rw [hut]
        exact Or.inr (Or.inr hfolded)
      · rcases ht.kind u hu with huv | hup | hud
        · exact Or.inl huv
        · exact Or.inr (Or.inl (OrdSet.mem_erase.2 ⟨hup, hut⟩))
        · exact Or.inr (Or.inr (OrdSet.mem_insert.2 (Or.inr hud)))
    self_mem := ht.self_mem
    not_pending := fun hmem => ht.not_pending (OrdSet.mem_erase.1 hmem).1
    silent_closed := by
      intro u hu hmem w hw
      have hu' : u ∈ m'.automaton.states := htreats'.states_sub u hmem
      have hw' := hless u hmem _ w hw
      -- only edges of the treated state may be new
      by_cases huv : u = v
      · rw [huv] at hw'
        rcases hnew w hw' with hw' | rfl | hw'
        · exact ht.silent_closed v ht.self_mem hv w hw'
        · exact ht.self_mem
        · exact ht.silent_closed target hsilent hstate w hw'
      · rw [htreats.others_eq u hu' huv] at hw'
        exact ht.silent_closed u hu (htreats.states_sub u hu') w hw'
    folding := hfolding' }

/-- Disconnecting a target that is not pending changes nothing about the kinds. Such a target is the
state itself or was folded in before, so its edge carries no words of its own. -/
theorem Treating.drop {silent pending done : VertexSet}
    (ht : m.Treating v silent pending done) (hv : v ∈ m.automaton.states)
    (htarget : target ∈ m.graph.destinations v .epsilon) (hpending : target ∉ pending) :
    ∃ m' gone, m.disconnect ⟨v, .epsilon, target⟩ = .ok gone m' ∧ m.Treats m' v ∧
      m'.Treating v silent pending done := by
  have hkind : target = v ∨ target ∈ done := by
    rcases ht.kind target (ht.silent_closed v ht.self_mem hv target htarget) with h | h | h
    · exact Or.inl h
    · exact absurd h hpending
    · exact Or.inr h
  obtain ⟨m', gone, hcut, htreats, hfolding, hless⟩ :=
    disconnect_folded ht.sound hv (ht.sound.target_mem hv htarget) hkind (ht.folding hv)
  refine ⟨m', gone, hcut, htreats, ?_⟩
  exact {
    sound := htreats.sound
    kind := ht.kind
    self_mem := ht.self_mem
    not_pending := ht.not_pending
    silent_closed := fun u hu hmem w hw =>
      ht.silent_closed u hu (htreats.states_sub u hmem) w (hless u hmem _ w hw)
    folding := hfolding }

/-- If no silent target is found, no silent edge is left. -/
theorem silentTarget?_eq_none {g : Graph} (h : silentTarget? g v = none) :
    g.destinations v .epsilon = ∅ := by
  rw [silentTarget?, List.head?_eq_none_iff, List.attachWith_eq_nil_iff] at h
  ext w
  refine iff_of_false (fun hw => ?_) (OrdSet.not_mem_empty w)
  have hmem := g.mem_inOrder.2 hw
  rw [h] at hmem
  nomatch hmem

/-- Treating one state succeeds, keeps what every state accepts, and leaves no edge out of the state
that reads nothing, if the state is still there. By induction on the calls: each of them either
folds a pending target in, or drops an edge to one that is not pending, or finds no target, or finds
the state removed. No call can fail, since folding and disconnecting succeed as long as the kinds
are complete. -/
theorem removeEpsilonsAt_spec {silent pending done : VertexSet}
    (ht : m.Treating v silent pending done) (n : FoldCount) :
    ∃ n' m', m.removeEpsilonsAt v pending n = .ok n' m' ∧ m.Treats m' v ∧
      (v ∈ m'.automaton.states → m'.graph.destinations v .epsilon = ∅) := by
  -- the states folded in so far change from call to call
  fun_induction removeEpsilonsAt m v pending n generalizing done with
  | case1 m pending n hv hnone =>
    exact ⟨n, m, rfl, .refl ht.sound v, fun _ => silentTarget?_eq_none hnone⟩
  -- a failure in folding or disconnecting contradicts that these succeed
  | case2 m pending n hv target htarget _ hpending f m' hfold =>
    obtain ⟨_, _, _, _, hfold', _⟩ := ht.fold hv htarget hpending n
    rw [hfold] at hfold'
    nomatch hfold'
  | case3 m pending n hv target htarget _ hpending n' m' hfold f m'' hcut =>
    obtain ⟨_, _, _, _, hfold', hcut', _⟩ := ht.fold hv htarget hpending n
    rw [hfold] at hfold'
    cases hfold'
    rw [hcut] at hcut'
    nomatch hcut'
  | case4 m pending n hv target htarget _ hpending n' m' hfold r m'' hcut ih =>
    obtain ⟨_, _, _, _, hfold', hcut', htreats, hnext⟩ := ht.fold hv htarget hpending n
    rw [hfold] at hfold'
    cases hfold'
    rw [hcut] at hcut'
    cases hcut'
    obtain ⟨n'', m₃, hrest, htreats', hempty⟩ := ih hnext
    exact ⟨n'', m₃, hrest, htreats.trans htreats', hempty⟩
  | case5 m pending n hv target htarget _ hpending _ cut f m' =>
    rename_i hcut
    obtain ⟨_, _, hcut', _⟩ := ht.drop hv htarget hpending
    rw [show m.disconnect ⟨v, .epsilon, target⟩ = .error f m' from hcut] at hcut'
    nomatch hcut'
  | case6 m pending n hv target htarget _ hpending _ cut gone m' hcut =>
    rename_i ih
    obtain ⟨m'', _, hcut', htreats, hnext⟩ := ht.drop hv htarget hpending
    have hleft : leftBy cut = m'' := by
      rw [show cut = _ from hcut']
      rfl
    rw [hleft] at ih ⊢
    obtain ⟨n'', m₃, hrest, htreats', hempty⟩ := ih hnext
    exact ⟨n'', m₃, hrest, htreats.trans htreats', hempty⟩
  | case7 m pending n hv =>
    exact ⟨n, m, rfl, .refl ht.sound v, fun h => absurd h hv⟩

/-! ## All states -/

/-- Treating states in turn keeps what every state accepts; no edge that reads nothing is left at a
state that was treated, and none comes back at one that had none. The latter holds because treating
a state leaves the edges of all others alone. -/
theorem removeEpsilonsFrom_spec (hm : m.automaton.Sound m.graph) (vs : List Vertex)
    (n : FoldCount) :
    ∃ n' m', m.removeEpsilonsFrom vs n = .ok n' m' ∧ m.KeepsWords m' ∧
      ∀ u ∈ m'.automaton.states, u ∈ vs ∨ m.graph.destinations u .epsilon = ∅ →
        m'.graph.destinations u .epsilon = ∅ := by
  induction vs generalizing m n with
  | nil =>
    refine ⟨n, m, rfl, .refl hm, ?_⟩
    rintro u _ (hu | hu)
    · nomatch hu
    · exact hu
  | cons v vs ih =>
    obtain ⟨n₁, m₁, hat, htreats, hempty⟩ := removeEpsilonsAt_spec (treating_closure hm v) n
    obtain ⟨n₂, m₂, hfrom, hkeeps, hrest⟩ := ih htreats.sound n₁
    refine ⟨n₂, m₂, ?_, htreats.toKeepsWords.trans hkeeps, ?_⟩
    · rw [removeEpsilonsFrom, hat]
      exact hfrom
    · intro u hu hor
      have hu₁ : u ∈ m₁.automaton.states := hkeeps.states_sub u hu
      apply hrest u hu
      -- the state treated now has no silent edges, and treating the others brings none back
      by_cases huv : u = v
      · rw [huv] at hu₁ ⊢
        exact Or.inr (hempty hu₁)
      · rcases hor with hmem | hnone
        · exact Or.inl ((List.mem_cons.1 hmem).resolve_left huv)
        · rw [htreats.others_eq u hu₁ huv]
          exact Or.inr hnone

/-- Removing all edges that read nothing succeeds, keeps what every state accepts, and leaves none.
All states are treated, so all that are still there are free of silent edges. -/
theorem removeEpsilons_spec (hm : m.automaton.Sound m.graph) :
    ∃ m', m.removeEpsilons = .ok () m' ∧ m.KeepsWords m' ∧
      ∀ u ∈ m'.automaton.states, m'.graph.destinations u .epsilon = ∅ := by
  obtain ⟨n, m₁, hfrom, hkeeps, hnone⟩ :=
    removeEpsilonsFrom_spec hm (m.graph.inOrder m.automaton.states).reverse {}
  rw [removeEpsilons, hfrom]
  have hreset : m₁.KeepsWords m₁.reset := ⟨reworks_reset hkeeps.sound, fun _ _ => rfl, rfl⟩
  -- the event that is logged changes nothing that is looked at
  refine ⟨_, rfl, { hkeeps.trans hreset with }, ?_⟩
  intro u hu
  apply hnone u hu
  exact Or.inl (List.mem_reverse.2 (m.graph.mem_inOrder.2 (hkeeps.states_sub u hu)))

end Machine

end PatternAutomata
