/-
Fragments hold nothing that is not needed.

That each state of a fragment leads to acceptance is a part of what a fragment recognizes. Here is
the other half: each state is reached from the start state. The ways of putting fragments together
add edges and take none away, so what was reached is reached, and where a fragment is taken in, an
edge leads to its start state. After a first part this edge comes from an accepting state, which
there is because the first part is useful; so reaching all states is handed on together with being
built (`Builder.Trims`).

The states that are drawn for a tree lie in a row, and so do their identifiers. So the automaton of
a tree passes the check and is made of just the states that were drawn for it, and automata that
are built one after the other have nothing in common and stay as they were built
(`Tree.automaton_trim`).
-/
import PatternAutomata.Proofs.Canonical.Numbering
import PatternAutomata.Proofs.Structure.Stranded
import PatternAutomata.Proofs.Words.Fragments

set_option autoImplicit false

namespace PatternAutomata

open PatternAutomata.Graph Computability

/-! ## What is reached -/

namespace Automaton

variable {g h : Graph} {a b : Automaton}

/-- Every state is reached from the start state. -/
def Reached (g : Graph) (a : Automaton) : Prop := ∀ v ∈ a.states, v ∈ g.reachable a.start

/-- What is reached in one graph is reached in another one with more edges, also from another start
state that reaches the old one. In this way the states of a part stay reached when the part is taken
into something larger. -/
theorem Reached.mem_reachable (ha : a.Reached g)
    (sub : ∀ v l, ∀ w ∈ g.destinations v l, w ∈ h.destinations v l) {s : Vertex}
    (hs : a.start ∈ h.reachable s) : ∀ v ∈ a.states, v ∈ h.reachable s :=
  fun v hv => mem_reachable_trans hs (reachable_mono sub (ha v hv))

/-- What is reached stays reached as edges are added. -/
theorem Reached.mono (ha : a.Reached g)
    (sub : ∀ v l, ∀ w ∈ g.destinations v l, w ∈ h.destinations v l) : a.Reached h :=
  ha.mem_reachable sub (h.self_mem_reachable a.start)

/-- Each state of an automaton that is made of useful parts leads to an accepting one. A word that
is accepted from the state ends there, and stays inside the automaton on its way. -/
theorem Recognizes.exists_accepting {useful : Prop} {L : Language Label}
    (ha : a.Recognizes useful g L) (hu : useful) {v : Vertex} (hv : v ∈ a.states) :
    ∃ w ∈ g.reachable v, w ∈ a.states ∧ (g.node w).isAccepting = true := by
  obtain ⟨word, w, hpath, hacc⟩ := ha.alive hu v hv
  have hreach : w ∈ g.reachable v := mem_reachable_iff.2 ⟨word, hpath⟩
  exact ⟨w, hreach, ha.sound.framed.mem_of_reachable hv hreach, hacc⟩

end Automaton

open Automaton

/-- Older states keep their edges, and there were none at places that are filled later. So building
on only adds edges. -/
theorem Supply.Grows.destinations_sub {s s' : Supply} (h : s.Grows s') :
    ∀ v l, ∀ w ∈ s.graph.destinations v l, w ∈ s'.graph.destinations v l := by
  intro v l w hw
  by_cases hv : v < s.graph.size
  · rw [destinations, h.node_eq v hv]
    exact hw
  · rw [destinations, node_eq_blank (Nat.le_of_not_lt hv)] at hw
    exact absurd hw (OrdSet.not_mem_empty w)

namespace Machine

variable {m : Machine} {other : Automaton} {new : Vertex}

/-- All that is read on in is reached from a state that accepted. It is enough that the first part
has one such state, since an edge leads from there to where the second part starts. -/
theorem reached_readOn (hm : m.automaton.Reached m.graph) (ho : other.Reached m.graph)
    (hmem : other.start ∈ other.states) {v : Vertex} (hv : v ∈ m.automaton.states)
    (hacc : (m.graph.node v).isAccepting = true) :
    (m.append other).automaton.Reached (m.append other).graph := by
  have hautomaton := automaton_append (m := m) hmem
  have hstart : (m.append other).automaton.start = m.automaton.start := by rw [hautomaton]
  have hstates : (m.append other).automaton.states = m.automaton.states ∪ other.states := by
    rw [hautomaton]
  have hsub : ∀ u l, ∀ w ∈ m.graph.destinations u l, w ∈ (m.append other).graph.destinations u l :=
    fun u l w hw => mem_destinations_append.2 (Or.inl hw)
  have hself := (m.append other).graph.self_mem_reachable m.automaton.start
  have hfirst := hm.mem_reachable hsub hself
  -- the accepting state now leads to where the second part starts
  have hbridge : other.start ∈ (m.append other).graph.reachable m.automaton.start :=
    mem_reachable_of_mem_destinations (hfirst v hv)
      (mem_destinations_append.2 (Or.inr ⟨⟨hv, hacc⟩, rfl, rfl⟩))
  intro u hu
  rw [hstates] at hu
  rw [hstart]
  rcases OrdSet.mem_union.1 hu with hu | hu
  · exact hfirst u hu
  · exact ho.mem_reachable hsub hbridge u hu

/-- Offering an option takes no edge away. -/
theorem destinations_sub_offer : ∀ v l, ∀ w ∈ m.graph.destinations v l,
    w ∈ (m.offer other).graph.destinations v l :=
  fun _ _ _ hw => mem_destinations_offer.2 (Or.inl hw)

/-- All of an option is reached from the start state of the choice, through the edge that offers
it. -/
theorem reached_offer (hm : m.automaton.Reached m.graph) (ho : other.Reached m.graph)
    (hstart : (m.offer other).automaton.start = m.automaton.start)
    (hmem : ∀ v, v ∈ (m.offer other).automaton.states ↔
      v ∈ m.automaton.states ∨ v ∈ other.states) :
    (m.offer other).automaton.Reached (m.offer other).graph := by
  have hself := (m.offer other).graph.self_mem_reachable m.automaton.start
  have hoption : other.start ∈ (m.offer other).graph.reachable m.automaton.start :=
    mem_reachable_of_mem_destinations hself (mem_destinations_offer.2 (Or.inr ⟨rfl, rfl, rfl⟩))
  intro v hv
  rw [hstart]
  rcases (hmem v).1 hv with hv | hv
  · exact hm.mem_reachable destinations_sub_offer hself v hv
  · exact ho.mem_reachable destinations_sub_offer hoption v hv

/-- A loop takes no edge away and keeps the start state. -/
theorem reached_loop (hm : m.automaton.Reached m.graph)
    (hautomaton : m.loop.automaton = m.automaton) :
    m.loop.automaton.Reached m.loop.graph := by
  rw [hautomaton]
  exact hm.mono fun v l w hw => mem_destinations_loop.2 (Or.inl hw)

/-- A new start state that leads to the former one reaches what that one reached. -/
theorem reached_restart (hm : m.automaton.Reached m.graph)
    (hmem : m.automaton.start ∈ m.automaton.states) :
    (m.restart new).automaton.Reached (m.restart new).graph := by
  have hautomaton := @automaton_restart m new hmem
  have hself := (m.restart new).graph.self_mem_reachable new
  have hformer : m.automaton.start ∈ (m.restart new).graph.reachable new :=
    mem_reachable_of_mem_destinations hself (mem_destinations_restart.2 (Or.inr ⟨rfl, rfl, rfl⟩))
  intro v hv
  rw [hautomaton] at hv ⊢
  rcases OrdSet.mem_insert.1 hv with rfl | hv
  · exact hself
  · exact hm.mem_reachable (fun u l w hw => mem_destinations_restart.2 (Or.inl hw)) hformer v hv

end Machine

/-! ## What is built -/

namespace Builder

/-- A construction builds a useful fragment with a language, all of which is reached. -/
def Trims (b : Builder Automaton) (L : Language Label) : Prop :=
  ∀ s, Fragment True L s (b s).2 (b s).1 ∧ (b s).1.Reached (b s).2.graph

/-- Work on an automaton over the states of a supply is work on a machine. The lemmas about machines
apply to what is built through this equation. -/
theorem reached_edit {a : Automaton} {f : Machine → Machine} {s : Supply} {m : Machine}
    (hm : f { graph := s.graph, automaton := a } = m) (h : m.automaton.Reached m.graph) :
    (edit a f s).1.Reached (edit a f s).2.graph := by
  rw [← hm] at h
  exact h

/-- A state by itself is reached, because it is the start state. -/
theorem reached_lone (g : Graph) (v : Vertex) (alphabet : Alphabet) :
    Automaton.Reached g { start := v, states := {v}, alphabet := alphabet } := by
  intro w hw
  rw [OrdSet.mem_singleton.1 hw]
  exact g.self_mem_reachable v

/-- What accepts just the empty word is a state by itself. -/
theorem trims_nothing : Trims nothing 1 :=
  fun s => ⟨builds_nothing s, reached_lone _ _ _⟩

/-- What one step between two states reaches: the one that it starts from, and the one that the edge
leads to. -/
theorem reached_connect {m : Machine} {start stop : Vertex} {l : Label}
    (hstart : m.automaton.start = start)
    (hstates : ∀ v ∈ m.automaton.states, v = start ∨ v = stop) :
    (m.connect ⟨start, l, stop⟩).automaton.Reached (m.connect ⟨start, l, stop⟩).graph := by
  have hself := (m.connect ⟨start, l, stop⟩).graph.self_mem_reachable start
  have hstop : stop ∈ (m.connect ⟨start, l, stop⟩).graph.destinations start l := by
    rw [Machine.graph_connect]
    exact mem_destinations_link.2 (Or.inr rfl)
  intro v hv
  rw [Machine.automaton_connect, hstart]
  have hends : v = start ∨ v = stop := by
    rcases Machine.mem_states_connect.1 hv with hv | hv
    · exact hstates v hv
    · exact hv
  rcases hends with rfl | rfl
  · exact hself
  · exact mem_reachable_of_mem_destinations hself hstop

/-- A letter draws two states and connects them. -/
theorem trims_letter (l : Label) : Trims (letter l) {l.word} := by
  intro s
  have hold : letter l s = edit
      { start := s.graph.size, states := .ofList [s.graph.size,
          (newState true false s).2.graph.size], alphabet := ∅ }
      (·.connect ⟨s.graph.size, l, (newState true false s).2.graph.size⟩)
      (newState false true (newState true false s).2).2 := rfl
  refine ⟨builds_letter l s, ?_⟩
  rw [hold]
  generalize (newState true false s).2 = first
  generalize (newState false true first).2 = second
  apply reached_edit rfl
  apply reached_connect rfl
  intro v hv
  simpa using OrdSet.mem_ofList.1 hv

/-- Reading on in fragments that are built one after the other reaches all of them. By induction on
the fragments: what was built so far is useful, so it has an accepting state, and all of the next
fragment is reached from there. -/
theorem reached_foldlM_readOn {L : Language Label} {s s' : Supply} {a : Automaton}
    (ha : Fragment True L s s' a) (hr : a.Reached s'.graph)
    {parts : List (Builder Automaton × Language Label)} (hparts : ∀ e ∈ parts, Trims e.1 e.2)
    {b : Builder Automaton} (hb : (parts.map Prod.fst).foldlM readOn a = b) :
    (b s').1.Reached (b s').2.graph := by
  rw [← hb]
  clear hb
  induction parts generalizing L s' a with
  | nil => exact hr
  | cons e parts ih =>
    obtain ⟨hnext, hnextr⟩ := hparts e List.mem_cons_self s'
    have hlater := ha.later hnext.grows
    -- what was built so far is useful, so it has a state to read on from
    obtain ⟨v, _, hv, hacc⟩ := hlater.exists_accepting trivial hlater.sound.start_mem
    have happended := Machine.reached_readOn (m := { graph := (e.1 s').2.graph, automaton := a })
      (hr.mono hnext.grows.destinations_sub) hnextr hnext.sound.start_mem hv hacc
    exact ih (ha.append hnext) happended fun e' he' => hparts e' (List.mem_cons_of_mem e he')

/-- In a sequence the fragments are read on in from a state that accepts the empty word, so each of
them is reached. -/
theorem trims_sequence {parts : List (Builder Automaton × Language Label)}
    (hparts : ∀ e ∈ parts, Trims e.1 e.2) :
    Trims (sequence (parts.map Prod.fst)) (parts.map Prod.snd).prod := by
  intro s
  refine ⟨builds_sequence (fun e he s => (hparts e he s).1) s, ?_⟩
  cases parts with
  | nil => exact (trims_nothing s).2
  | cons e parts =>
    obtain ⟨hfirst, hfirstr⟩ := hparts e List.mem_cons_self s
    exact reached_foldlM_readOn hfirst hfirstr
      (fun e' he' => hparts e' (List.mem_cons_of_mem e he')) rfl

/-- Offering fragments one after the other reaches all of them. By induction on the fragments: an
option that was offered stays reached as others are offered, and the start state of the choice stays
the same. -/
theorem Offering.reached_foldlM {a : Automaton} {s : Supply} {L : Language Label}
    {pieces : List (Automaton × Language Label)} (h : Offering True a s L pieces)
    (hr : a.Reached s.graph) (hpieces : ∀ e ∈ pieces, e.1.Reached s.graph)
    {start : Vertex} (hstart : a.start = start) {b : Builder Automaton}
    (hb : (pieces.map Prod.fst).foldlM (offerFrom start) a = b) :
    (b s).1.Reached (b s).2.graph := by
  rw [← hb]
  clear hb
  induction pieces generalizing a s L with
  | nil => exact hr
  | cons e pieces ih =>
    obtain ⟨hnext, hoffered⟩ := h.step
    let m : Machine := { graph := s.graph, automaton := a }
    have hstep : offerFrom a.start a e.1 s =
        ((m.offer e.1).automaton, { s with graph := (m.offer e.1).graph }) := rfl
    have hmem : ∀ v, v ∈ (offerFrom a.start a e.1 s).1.states ↔ v ∈ a.states ∨ v ∈ e.1.states := by
      intro v
      rw [hoffered.mem_states]
      simp only [List.mem_singleton, exists_eq_left]
    have hlater : (offerFrom a.start a e.1 s).1.Reached (offerFrom a.start a e.1 s).2.graph ∧
        ∀ d ∈ pieces, d.1.Reached (offerFrom a.start a e.1 s).2.graph := by
      have hoption := Machine.reached_offer (m := m) hr (hpieces e List.mem_cons_self)
        hoffered.start_eq hmem
      have hsub := @Machine.destinations_sub_offer m e.1
      rw [hstep]
      generalize m.offer e.1 = made at *
      exact ⟨hoption, fun d hd => (hpieces d (List.mem_cons_of_mem e hd)).mono hsub⟩
    -- the start state stays, so the other pieces are offered from the same one
    rw [hstart] at hnext hoffered hlater
    exact ih hnext hlater.1 hlater.2 (hoffered.start_eq.trans hstart)

/-- In a choice between fragments all of them are reached. They were built before the start state of
the choice was drawn, and are as they were when it is. -/
theorem reached_choice {s s' : Supply} {pieces : List (Automaton × Language Label)}
    (hpieces : Pieces True s s' pieces) (hr : ∀ e ∈ pieces, e.1.Reached s'.graph) :
    (choice (pieces.map Prod.fst) s').1.Reached (choice (pieces.map Prod.fst) s').2.graph := by
  have hgrows := grows_newState true false s'
  have hoffering := hpieces.offering
  have hchoice : choice (pieces.map Prod.fst) s' = (pieces.map Prod.fst).foldlM
      (offerFrom s'.graph.size)
      { start := s'.graph.size, states := {s'.graph.size}, alphabet := ∅ }
      (newState true false s').2 := rfl
  rw [hchoice]
  generalize (newState true false s').2 = drawn at *
  have hlater : ∀ e ∈ pieces, e.1.Reached drawn.graph :=
    fun e he => (hr e he).mono hgrows.destinations_sub
  exact hoffering.reached_foldlM (reached_lone _ _ _) hlater rfl rfl

/-- Of two options each is reached from the common start state. -/
theorem trims_either {left right : Builder Automaton} {L M : Language Label}
    (hleft : Trims left L) (hright : Trims right M) : Trims (either left right) (L + M) := by
  intro s
  obtain ⟨hl, hlr⟩ := hleft s
  obtain ⟨hr, hrr⟩ := hright (left s).2
  have hpieces := Pieces.cons hl (.cons hr (.nil _))
  have hchoice := reached_choice hpieces fun e he => by
    rcases List.mem_cons.1 he with rfl | he
    · exact hlr.mono hr.grows.destinations_sub
    · rw [List.mem_singleton.1 he]
      exact hrr
  exact ⟨builds_either (fun s => (hleft s).1) (fun s => (hright s).1) s, hchoice⟩

/-- Any number of rounds reaches what one round reached. If the start state of the body may stay the
start, one flag changes, and no edge; otherwise a new start state leads to it. -/
theorem trims_star {body : Builder Automaton} {L : Language Label} (hbody : Trims body L) :
    Trims (star body) L∗ := by
  intro s
  refine ⟨builds_star (fun s => (hbody s).1) s, ?_⟩
  obtain ⟨ha, hr⟩ := hbody s
  generalize hb : body s = built at ha hr
  obtain ⟨a, s'⟩ := built
  dsimp only at ha hr
  let m : Machine := { graph := s'.graph, automaton := a }
  have hautomaton : m.loop.automaton = a := Machine.automaton_loop (m := m) ha.sound
  have hloop := Machine.reached_loop (m := m) hr hautomaton
  rw [star_eq (m := m) hb rfl]
  rw [hautomaton] at hloop ⊢
  generalize m.loop.graph = looped at *
  split
  · have hgrows := grows_newState false true { s' with graph := looped }
    generalize (newState false true { s' with graph := looped }).2 = drawn at *
    have hlater : a.Reached drawn.graph := hloop.mono hgrows.destinations_sub
    apply reached_edit
      (m := Machine.restart { graph := drawn.graph, automaton := a } looped.size) rfl
    exact Machine.reached_restart hlater ha.sound.start_mem
  · -- a flag is no edge
    apply reached_edit rfl
    refine hloop.mono fun v l w hw => ?_
    rw [(Machine.sameTables_flagAccepting _ v true).destinations_eq]
    exact hw

/-- Being reached is handed on in each way of putting fragments together, so it holds of what any
tree builds. -/
theorem handedOn_trims : HandedOn Trims where
  nothing := trims_nothing
  sequence := trims_sequence
  either := trims_either
  star := trims_star

end Builder

namespace Tree

/-! ## Trees -/

/-- Options that are built one behind the other are reached each from its start state, and stay so
while the others are built. -/
theorem reached_buildEach {ts : List Tree} (hts : ∀ e ∈ ts.map part, Builder.Trims e.1 e.2)
    (s : Supply) : ∀ a ∈ (buildEach ts s).1, a.Reached (buildEach ts s).2.graph := by
  induction ts generalizing s with
  | nil => exact fun a ha => absurd ha List.not_mem_nil
  | cons t ts ih =>
    have hrest : ∀ e ∈ ts.map part, Builder.Trims e.1 e.2 :=
      fun e he => hts e (List.mem_cons_of_mem _ he)
    obtain ⟨_, hr⟩ := hts (part t) List.mem_cons_self s
    obtain ⟨pieces, hpieces, _⟩ := pieces_buildEach (fun e he s => (hrest e he s).1) (build t s).2
    intro a ha
    rcases List.mem_cons.1 (show a ∈ (build t s).1 :: (buildEach ts (build t s).2).1 from ha)
      with rfl | ha
    · exact hr.mono hpieces.grows.destinations_sub
    · exact ih hrest (build t s).2 a ha

/-- A choice between trees reaches the states of all of them. -/
theorem trims_choice (ts : List Tree) (hts : ∀ e ∈ ts.map part, Builder.Trims e.1 e.2)
    (hsome : True → ts ≠ []) :
    Builder.Trims (do .choice (← buildEach ts)) (languageOfChoice ts) := by
  intro s
  have hbuilds : ∀ e ∈ ts.map part, Builder.Builds True e.1 e.2 := fun e he s => (hts e he s).1
  obtain ⟨pieces, hpieces, hfst, _⟩ := pieces_buildEach hbuilds s
  have hchoice := Builder.reached_choice hpieces fun e he =>
    reached_buildEach hts s e.1 (hfst ▸ List.mem_map_of_mem he)
  rw [hfst] at hchoice
  exact ⟨builds_choice ts hbuilds hsome s, hchoice⟩

/-- All of what is built of a tree is reached, if no choice in it is without options. A choice
without options would leave states behind that lead nowhere, and then nothing could be read on from
them. -/
theorem trims (t : Tree) (h : t.Feasible) : Builder.Trims t.build t.language :=
  t.build_induction Builder.handedOn_trims Builder.trims_letter trims_choice fun _ : True => h

/-! ## Automata of trees -/

/-- The automaton of a tree is its fragment at the beginning of a run, with the start state and what
it reaches without reading as the current states. -/
theorem automaton_eq (t : Tree) (s : Supply) : t.automaton s =
    ({ (t.build s).1 with
        run := .begin (t.build s).2.graph ((t.build s).2.graph.closure {(t.build s).1.start}) },
      (t.build s).2) := rfl

end Tree

namespace Fragment

variable {useful : Prop} {L : Language Label} {s s' : Supply} {a : Automaton}

/-- The states of a fragment lie in a row: they are the places that the graph grew by. -/
theorem mem_row (ha : Fragment useful L s s' a) (v : Nat) : v ∈ a.states ↔
    s.graph.size ≤ v ∧ v < s.graph.size + (s'.graph.size - s.graph.size) := by
  rw [Nat.add_sub_cancel' ha.grows.size_le]
  exact ha.mem_states v

/-- A fragment has as many states as were drawn for it, so no drawn state is left out. -/
theorem size_states (ha : Fragment useful L s s' a) :
    a.states.size = s'.graph.size - s.graph.size :=
  Automaton.size_row ha.mem_row

/-- The identifiers of a fragment are those that were drawn for it, in the order in which they were
drawn. -/
theorem ids_states (ha : Fragment useful L s s' a) : s'.graph.ids a.states =
    (List.range a.states.size).map fun i : Nat => s.nextId + i := by
  rw [ha.size_states]
  refine Automaton.ids_row ha.mem_row fun i hi => ?_
  rw [ha.grows.id_eq _ (Nat.le_add_right _ _) (by omega)]
  omega

end Fragment

namespace Tree

/-- The first automaton is built in the supply that is given, and the others in what it leaves. -/
theorem mapM_automaton_cons {t : Tree} {ts : List Tree} {s s' : Supply} {as : List Automaton}
    (h : (ts.mapM automaton : Builder (List Automaton)) (t.automaton s).2 = (as, s')) :
    ((t :: ts).mapM automaton : Builder (List Automaton)) s = ((t.automaton s).1 :: as, s') := by
  rw [List.mapM_cons]
  show ((t.automaton s).1 :: ((ts.mapM automaton : Builder (List Automaton))
    (t.automaton s).2).1, ((ts.mapM automaton : Builder (List Automaton))
      (t.automaton s).2).2) = _
  rw [h]

/-- Automata that are built one after the other are apart, and pass the check as long as they are
built on. By induction on the trees: the states of the later ones are drawn after those of the
first, so they share neither places nor identifiers with it, and leave it as it was. -/
theorem automata_apart (ts : List Tree) (s : Supply) :
    ∃ as s', (ts.mapM automaton : Builder (List Automaton)) s = (as, s') ∧ s.Grows s' ∧
      as.Pairwise (fun a b => a.Apart s'.graph b) ∧ ∀ a ∈ as, a.Sound s'.graph ∧
        ∀ v ∈ a.states, s.graph.size ≤ v ∧ v < s'.graph.size := by
  induction ts generalizing s with
  | nil => exact ⟨[], s, rfl, .refl s, .nil, fun a ha => absurd ha List.not_mem_nil⟩
  | cons t ts ih =>
    have hbuilt := t.builds (fun h : False => h.elim) s
    obtain ⟨as, s', hrun, hgrows, hapart, hall⟩ := ih (t.automaton s).2
    have hlater : s.Grows s' := hbuilt.grows.trans hgrows
    have hfirst : ∀ v ∈ (t.automaton s).1.states, s.graph.size ≤ v ∧ v < s'.graph.size := by
      intro v hv
      obtain ⟨hle, hlt⟩ := (hbuilt.mem_states v).1 hv
      exact ⟨hle, Nat.lt_of_lt_of_le hlt hgrows.size_le⟩
    have hrest : ∀ b ∈ as, ∀ v ∈ b.states, s.graph.size ≤ v ∧ v < s'.graph.size := by
      intro b hb v hv
      obtain ⟨hle, hlt⟩ := (hall b hb).2 v hv
      exact ⟨Nat.le_trans hbuilt.grows.size_le hle, hlt⟩
    refine ⟨(t.automaton s).1 :: as, s', mapM_automaton_cons hrun, hlater,
      List.pairwise_cons.2 ⟨?_, hapart⟩, ?_⟩
    · -- the states of the later ones were drawn after those of the first
      intro b hb
      apply hlater.apart hfirst (hrest b hb)
      intro v hv hvb
      exact Nat.not_lt.2 ((hall b hb).2 v hvb).1 ((hbuilt.mem_states v).1 hv).2
    · intro b hb
      rcases List.mem_cons.1 hb with rfl | hb
      -- the first one is left as it was by the later builds
      · refine ⟨hbuilt.sound.begun.congr_nodes (fun v hv => ?_) hgrows.size_le, hfirst⟩
        exact hgrows.node_eq v ((hbuilt.mem_states v).1 hv).2
      · exact ⟨(hall b hb).1, hrest b hb⟩

/-- Whatever the graph holds already and whichever identifier is the next, the automaton of a tree
passes the check, has just the identifiers that were drawn for it, and may be where its start state
leads without reading. If no choice in the tree is without options, each of its states is reached
from the start state and leads to an accepting one. Automata that are built one after the other
share neither states nor identifiers, and all of them still pass the check in the end. -/
theorem automaton_trim (t : Tree) (s : Supply) :
    ∃ a s', t.automaton s = (a, s') ∧ a.violation? s'.graph = none ∧ a.Closed s'.graph ∧
      s'.nextId = s.nextId + a.states.size ∧
      s'.graph.ids a.states = (List.range a.states.size).map (fun i : Nat => s.nextId + i) ∧
      a.run.current = s'.graph.closure {a.start} ∧
      (t.Feasible → ∀ v ∈ a.states, v ∈ s'.graph.reachable a.start ∧
        ∃ w ∈ s'.graph.reachable v, w ∈ a.states ∧ (s'.graph.node w).isAccepting = true) ∧
      ∀ ts : List Tree, ∃ as s'', (ts.mapM automaton : Builder (List Automaton)) s' = (as, s'') ∧
        (a :: as).Pairwise (fun b c => b.Apart s''.graph c) ∧
        ∀ b ∈ a :: as, b.violation? s''.graph = none := by
  have hbuilt := t.builds (fun h : t.Feasible => h) s
  have hsound := hbuilt.sound.begun
  refine ⟨_, _, automaton_eq t s, Automaton.violation?_eq_none_iff.2 hsound.wellFormed,
    hsound.closed, ?_, hbuilt.ids_states, Run.current_begin _ _, ?_, ?_⟩
  · have hnext := hbuilt.grows.nextId_eq
    have hsize := hbuilt.size_states
    have hle := hbuilt.grows.size_le
    show (t.build s).2.nextId = s.nextId + (t.build s).1.states.size
    omega
  · intro h v hv
    exact ⟨(t.trims h s).2 v hv, hbuilt.exists_accepting h hv⟩
  -- the list with the tree in front is built by the same steps
  · intro ts
    obtain ⟨as, s'', hrun, _⟩ := automata_apart ts (t.automaton s).2
    obtain ⟨all, u, hrun', _, hapart, hall⟩ := automata_apart (t :: ts) s
    rw [mapM_automaton_cons hrun] at hrun'
    cases hrun'
    exact ⟨as, s'', hrun, hapart, fun b hb =>
      Automaton.violation?_eq_none_iff.2 (hall b hb).1.wellFormed⟩

/-- A choice between a letter and any number of others, drawn from seven on: its states have the
identifiers from seven on, and each of them is reached and leads to acceptance. -/
theorem automaton_trim_letterOrMore :
    (either (char (.symbol "a") none) (star (char (.symbol "b") none)) none).Feasible ∧
      ∃ a s', (either (char (.symbol "a") none) (star (char (.symbol "b") none)) none).automaton
          ⟨∅, 7⟩ = (a, s') ∧
        s'.graph.ids a.states = (List.range a.states.size).map (fun i : Nat => (7 + i : Int)) ∧
        ∀ v ∈ a.states, v ∈ s'.graph.reachable a.start ∧
          ∃ w ∈ s'.graph.reachable v, w ∈ a.states ∧ (s'.graph.node w).isAccepting = true := by
  have hfeasible :
      (either (char (.symbol "a") none) (star (char (.symbol "b") none)) none).Feasible := by
    simp only [star, Feasible, and_self]
  obtain ⟨a, s', hrun, _, _, _, hids, _, htrim, _⟩ := automaton_trim
    (either (char (.symbol "a") none) (star (char (.symbol "b") none)) none) ⟨∅, 7⟩
  exact ⟨hfeasible, a, s', hrun, hids, htrim hfeasible⟩

end Tree

end PatternAutomata
