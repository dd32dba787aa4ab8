/-
States that join an automaton, and what reading and marking leave alone.

A state from outside may join if it is fresh: it is a filled place without edges and
without the start flag, and no state of the automaton has its identifier. Taking such a
state in keeps an automaton sound, and adding an edge to a fresh state is the same as
taking the state in first (`connectAll_takeIn`). So is adding a trap, whose identifier is
greater than all others. A framed automaton may take in any spare state, which has no edges and
no start flag but may share its identifier.

Two automata can be joined if they are apart: they share neither states nor identifiers.
The joined automaton has the states of both and starts where the first one did.
-/
import PatternAutomata.Proofs.Structure.Editing

set_option autoImplicit false

namespace PatternAutomata

open PatternAutomata.Graph

/-! ## Reading -/

namespace Run

/-- Noting positions one after the other stops early or not, and changes nothing but what is
noted. -/
theorem current_recordAll (r : Run) (vs : List Vertex) :
    (r.recordAll vs).current = r.current := by
  induction vs generalizing r with
  | nil => rfl
  | cons v vs ih =>
    rw [recordAll]
    split
    · rfl
    · exact ih _

/-- Noting positions does not change where a run may be. Everything said of current states can
ignore the notes. -/
theorem current_record (r : Run) (g : Graph) : (r.record g).current = r.current := by
  rw [record]
  split
  · rfl
  · exact current_recordAll r _

/-- A run begins in the states that it is given. -/
theorem current_begin (g : Graph) (vs : VertexSet) : (begin g vs).current = vs :=
  current_record _ g

end Run

namespace Automaton.Sound

variable {g : Graph} {a : Automaton}

/-- An automaton stays sound on another run through its states. Of a run, soundness looks only at
where it may be. -/
theorem withRun (ha : a.Sound g) {r : Run} (hr : ∀ v ∈ r.current, v ∈ a.states) :
    { a with run := r }.Sound g :=
  ha.congr rfl rfl rfl hr (fun v _ => .refl g v) (fun _ _ => rfl) (fun _ _ => rfl)
    (Nat.le_refl _)

/-- Silent edges do not lead out of the automaton, so taking them in does not either. -/
theorem closure_mem (ha : a.Sound g) {vs : VertexSet} (hvs : ∀ v ∈ vs, v ∈ a.states) :
    ∀ w ∈ g.closure vs, w ∈ a.states :=
  forall_mem_closure hvs fun _ hv _ hw => ha.target_mem hv hw

/-- Neither do the edges that read a symbol. -/
theorem targets_mem (ha : a.Sound g) {vs : VertexSet} (hvs : ∀ v ∈ vs, v ∈ a.states)
    (l : Label) : ∀ w ∈ g.targets vs l, w ∈ a.states := by
  intro w hw
  obtain ⟨v, hv, hvw⟩ := mem_targets.1 hw
  exact ha.target_mem (hvs v hv) hvw

/-- The states in which an automaton begins are states of its own. -/
theorem closure_start_mem (ha : a.Sound g) : ∀ w ∈ g.closure {a.start}, w ∈ a.states := by
  apply ha.closure_mem
  intro v hv
  rw [OrdSet.mem_singleton.1 hv]
  exact ha.start_mem

/-- An automaton is sound at the beginning, whatever it had read before. -/
theorem begun (ha : a.Sound g) : { a with run := .begin g (g.closure {a.start}) }.Sound g := by
  apply ha.withRun
  intro v hv
  rw [Run.current_begin] at hv
  exact ha.closure_start_mem v hv

end Automaton.Sound

namespace Machine

variable {m : Machine}

/-- Putting an automaton on another run through its states is work inside it: reading touches
nothing but the run. -/
theorem reworks_withRun (hm : m.automaton.Sound m.graph) {r : Run}
    (hr : ∀ v ∈ r.current, v ∈ m.automaton.states) :
    m.Reworks (m.onAutomaton fun a => { a with run := r }) where
  sound := hm.withRun hr
  states_sub _ hv := hv
  alphabet_eq := rfl
  strict_eq := rfl
  discarded_eq := rfl
  node_eq _ _ := rfl
  id_eq _ := rfl
  size_eq := rfl

/-- Starting over is such a run. -/
theorem reworks_reset (hm : m.automaton.Sound m.graph) : m.Reworks m.reset := by
  apply reworks_withRun hm
  intro v hv
  rw [Run.current_begin] at hv
  exact hm.closure_start_mem v hv

/-- What a symbol leads to lies in the automaton. -/
theorem after_mem (hm : m.automaton.Sound m.graph) (l : Label) :
    ∀ v ∈ m.after l, v ∈ m.automaton.states := by
  intro v hv
  rw [after] at hv
  split at hv
  · exact hm.closure_mem (hm.targets_mem hm.current_mem l) v hv
  · exact absurd hv (OrdSet.not_mem_empty v)

/-- Reading on by one symbol is such a run, also if the symbol leads nowhere. -/
theorem reworks_advance (hm : m.automaton.Sound m.graph) (l : Label) :
    m.Reworks (m.advance l) := by
  apply reworks_withRun hm
  intro v hv
  rw [Run.current_record] at hv
  exact after_mem hm l v hv

end Machine

/-! ## Fresh states -/

/-- A state as it is made: a filled place without edges and without the start flag. -/
structure Graph.Spare (g : Graph) (v : Vertex) : Prop where
  placed : v < g.size
  unconnected : g.Unconnected v
  isStart_eq : (g.node v).isStart = false

namespace Machine

variable {m : Machine}

/-- A state that may join an automaton. -/
structure Fresh (m : Machine) (v : Vertex) : Prop where
  placed : v < m.graph.size
  unconnected : m.graph.Unconnected v
  isStart_eq : (m.graph.node v).isStart = false
  id_ne : ∀ u ∈ m.automaton.states, (m.graph.node u).id ≠ (m.graph.node v).id

/-- The machine with one more state in its automaton. -/
def takeIn (m : Machine) (v : Vertex) : Machine :=
  m.onAutomaton fun a => { a with states := a.states.insert v }

/-- One state more than before, if it was not there already. -/
theorem mem_states_takeIn {v w : Vertex} :
    w ∈ (m.takeIn v).automaton.states ↔ w = v ∨ w ∈ m.automaton.states :=
  OrdSet.mem_insert

theorem graph_takeIn (v : Vertex) : (m.takeIn v).graph = m.graph := rfl

theorem start_takeIn (v : Vertex) : (m.takeIn v).automaton.start = m.automaton.start := rfl

/-- Taking in a state that is there changes nothing. So an edit may begin by taking in what it
mentions, and the cases of a state that is there and of a new one are one. -/
theorem takeIn_eq_self {v : Vertex} (hv : v ∈ m.automaton.states) : m.takeIn v = m := by
  have hstates : m.automaton.states.insert v = m.automaton.states := by
    ext w
    rw [OrdSet.mem_insert]
    constructor
    · rintro (rfl | hw)
      · exact hv
      · exact hw
    · exact Or.inr
  rw [takeIn, onAutomaton, hstates]

/-- A state without edges that is no start can be taken in: there is nothing about it that could
disagree. -/
theorem framed_takeIn (hm : m.automaton.Framed m.graph) {v : Vertex} (hv : m.graph.Spare v) :
    (m.takeIn v).automaton.Framed (m.takeIn v).graph where
  start_mem := mem_states_takeIn.2 (Or.inr hm.start_mem)
  isStart_iff w hw := by
    rw [graph_takeIn, start_takeIn]
    rcases mem_states_takeIn.1 hw with hwv | hw
    · rw [hwv, hv.isStart_eq]
      refine iff_of_false Bool.false_ne_true ?_
      rintro rfl
      exact Bool.false_ne_true (hv.isStart_eq.symm.trans ((hm.isStart_iff _ hm.start_mem).2 rfl))
    · exact hm.isStart_iff w hw
  consistent := hm.consistent.insert hv.unconnected
  placed w hw := by
    rcases mem_states_takeIn.1 hw with rfl | hw
    · exact hv.placed
    · exact hm.placed w hw

/-- A fresh state is none of the automaton, as its identifier is a new one. -/
theorem Fresh.not_mem {v : Vertex} (hv : m.Fresh v) : v ∉ m.automaton.states :=
  fun h => hv.id_ne v h rfl

/-- What is fresh can be taken in. -/
theorem Fresh.spare {v : Vertex} (hv : m.Fresh v) : m.graph.Spare v :=
  ⟨hv.placed, hv.unconnected, hv.isStart_eq⟩

/-- A fresh state brings in neither edges nor symbols. That its identifier is a new one is all that
the check could object to. -/
theorem labelled_takeIn (hm : m.automaton.Labelled m.graph) {v : Vertex} (hv : m.Fresh v) :
    (m.takeIn v).automaton.Labelled (m.takeIn v).graph where
  wellFormed := by
    -- the states are those of the automaton and a set of one, whose tables agree by themselves
    have hset : (m.takeIn v).automaton.states = m.automaton.states ∪ {v} := by
      ext w
      rw [mem_states_takeIn, OrdSet.mem_union, OrdSet.mem_singleton, or_comm]
    have hlone : m.graph.Coherent {v} := (consistent_iff.1 hv.unconnected.consistent).1
    refine Automaton.wellFormed_iff.2 ⟨mem_states_takeIn.2 (Or.inr hm.start_mem), ?_, ?_, ?_⟩
    · intro w hw
      rw [graph_takeIn, start_takeIn]
      rcases mem_states_takeIn.1 hw with rfl | hw
      · rw [hv.isStart_eq]
        exact iff_of_false Bool.false_ne_true fun heq => hv.not_mem (heq ▸ hm.start_mem)
      · exact hm.isStart_iff hw
    · intro w hw u hu e
      rw [graph_takeIn] at e
      -- a new state is told from the old ones by its identifier
      rcases mem_states_takeIn.1 hw with hwv | hw
      · rcases mem_states_takeIn.1 hu with huv | hu
        · exact hwv.trans huv.symm
        · rw [hwv] at e
          exact absurd e.symm (hv.id_ne u hu)
      · rcases mem_states_takeIn.1 hu with huv | hu
        · rw [huv] at e
          exact absurd e (hv.id_ne w hw)
        · exact hm.id_injective hw hu e
    · rw [hset, graph_takeIn]
      apply hm.wellFormed.coherent.union hlone
      intro w hw hwv
      exact hv.not_mem (OrdSet.mem_singleton.1 hwv ▸ hw)
  label_mem w hw l u hu hl := by
    rw [graph_takeIn] at hu
    rcases mem_states_takeIn.1 hw with hwv | hw
    · rw [hwv, hv.unconnected.destinations_eq] at hu
      exact absurd hu (OrdSet.not_mem_empty u)
    · exact hm.label_mem w hw l u hu hl
  epsilon_not_mem := hm.epsilon_not_mem

/-- Taking a fresh state in keeps an automaton sound, for both parts of soundness. -/
theorem sound_takeIn (hm : m.automaton.Sound m.graph) {v : Vertex} (hv : m.Fresh v) :
    (m.takeIn v).automaton.Sound (m.takeIn v).graph := by
  apply (labelled_takeIn hm.labelled hv).sound (framed_takeIn hm.framed hv.spare)
  intro w hw
  exact mem_states_takeIn.2 (Or.inr (hm.current_mem w hw))

/-- A state may be mentioned if it lives in the automaton or is fresh. -/
def LiveOrFresh (m : Machine) (v : Vertex) : Prop := v ∈ m.automaton.states ∨ m.Fresh v

/-- So taking in a state that is there or fresh keeps it sound, in the one case by doing nothing. -/
theorem sound_takeIn_of_liveOrFresh (hm : m.automaton.Sound m.graph) {v : Vertex}
    (hv : m.LiveOrFresh v) : (m.takeIn v).automaton.Sound (m.takeIn v).graph := by
  rcases hv with hv | hv
  · rw [takeIn_eq_self hv]
    exact hm
  · exact sound_takeIn hm hv

/-- A second fresh state stays fresh if its identifier is a different one. Otherwise the two could
not both join. -/
theorem Fresh.takeIn {v w : Vertex} (hw : m.Fresh w)
    (hne : (m.graph.node v).id ≠ (m.graph.node w).id) : (m.takeIn v).Fresh w where
  placed := hw.placed
  unconnected := hw.unconnected
  isStart_eq := hw.isStart_eq
  id_ne u hu := by
    rcases mem_states_takeIn.1 hu with rfl | hu
    · exact hne
    · exact hw.id_ne u hu

/-- Automata that differ in the listing of the same states only are equal. Sets have one form, so it
is enough to compare members; here that is said of machines that agree in everything else. -/
theorem ext_states {m' : Machine} (graph_eq : m'.graph = m.graph) (log_eq : m'.log = m.log)
    (automaton_eq : m'.automaton = { m.automaton with states := m'.automaton.states })
    (states_iff : ∀ v, v ∈ m'.automaton.states ↔ v ∈ m.automaton.states) : m' = m := by
  have hstates : m'.automaton.states = m.automaton.states := OrdSet.ext states_iff
  rw [hstates] at automaton_eq
  cases m
  cases m'
  simp_all

/-- It does not matter whether the ends of an edge are states before it is added, for they are
afterwards. -/
theorem connect_onStates {e : Edge} {S : VertexSet}
    (hS : ∀ v, v ∈ S ∨ v = e.source ∨ v = e.target ↔
      v ∈ m.automaton.states ∨ v = e.source ∨ v = e.target) :
    (m.onAutomaton fun a => { a with states := S }).connect e = m.connect e := by
  refine ext_states (m := m.connect e) ?_ rfl rfl ?_
  · rw [graph_connect, graph_connect, onAutomaton]
  · intro v
    rw [mem_states_connect, mem_states_connect]
    exact hS v

/-- An edge takes in its ends by itself. Whatever is known about edges between states of an
automaton is known with this about edges to a state that is to join. -/
theorem connect_takeIn {e : Edge} {v : Vertex} (hv : v = e.source ∨ v = e.target) :
    (m.takeIn v).connect e = m.connect e := by
  refine ext_states (m := m.connect e) ?_ rfl rfl ?_
  · rw [graph_connect, graph_connect, graph_takeIn]
  · intro w
    rw [mem_states_connect, mem_states_connect, mem_states_takeIn]
    grind

/-- Any state may be taken in before an edge is added or after it. -/
theorem connect_takeIn_comm {e : Edge} {v : Vertex} :
    (m.takeIn v).connect e = (m.connect e).takeIn v := by
  refine ext_states (m := (m.connect e).takeIn v) ?_ rfl rfl ?_
  · rw [graph_connect, graph_takeIn, graph_takeIn, graph_connect]
  · intro w
    rw [mem_states_connect, mem_states_takeIn, mem_states_takeIn, mem_states_connect]
    grind

/-- Several edges take in all their ends by themselves. By induction on the edges, taking the state
in further and further on, up to the first edge that has it as an end. -/
theorem connectAll_takeIn {es : List Edge} {v : Vertex}
    (hv : ∃ e ∈ es, v = e.source ∨ v = e.target) :
    (m.takeIn v).connectAll es = m.connectAll es := by
  induction es generalizing m with
  | nil =>
    obtain ⟨e, he, _⟩ := hv
    nomatch he
  | cons e es ih =>
    rw [connectAll_cons, connectAll_cons]
    -- the first edge may take the state in, else a later one does
    by_cases he : v = e.source ∨ v = e.target
    · rw [connect_takeIn he]
    · rw [connect_takeIn_comm]
      apply ih
      obtain ⟨e', he', hv'⟩ := hv
      rcases List.mem_cons.1 he' with rfl | he'
      · exact absurd hv' he
      · exact ⟨e', he', hv'⟩

/-- Adding an edge keeps an automaton sound if each of its ends is a state or fresh, and two fresh
ends have different identifiers. Both ends are taken in first, which changes nothing about the
result. -/
theorem sound_connect (hm : m.automaton.Sound m.graph) {e : Edge}
    (hs : m.LiveOrFresh e.source) (ht : m.LiveOrFresh e.target)
    (hids : m.Fresh e.source → m.Fresh e.target → e.source ≠ e.target →
      (m.graph.node e.source).id ≠ (m.graph.node e.target).id) :
    (m.connect e).automaton.Sound (m.connect e).graph := by
  -- the source is taken in first, and after that the target may still be fresh
  have htarget : (m.takeIn e.source).LiveOrFresh e.target := by
    rcases ht with ht | ht
    · exact Or.inl (mem_states_takeIn.2 (Or.inr ht))
    · by_cases hst : e.target = e.source
      · exact Or.inl (mem_states_takeIn.2 (Or.inl hst))
      · rcases hs with hs | hs
        · exact Or.inr (ht.takeIn (ht.id_ne _ hs))
        · exact Or.inr (ht.takeIn (hids hs ht (Ne.symm hst)))
  have hboth := sound_takeIn_of_liveOrFresh (sound_takeIn_of_liveOrFresh hm hs) htarget
  rw [← connect_takeIn (m := m) (Or.inl rfl), ← connect_takeIn (m := m.takeIn _) (Or.inr rfl)]
  apply hboth.connect
  · exact mem_states_takeIn.2 (Or.inr (mem_states_takeIn.2 (Or.inl rfl)))
  · exact mem_states_takeIn.2 (Or.inl rfl)

/-- The start may move to a state of the automaton or to a fresh one, which is taken in with it. -/
theorem sound_shiftStart (hm : m.automaton.Sound m.graph) {new : Vertex}
    (hn : m.LiveOrFresh new) :
    (m.shiftStart m.automaton.start new).automaton.Sound
      (m.shiftStart m.automaton.start new).graph := by
  have hmoved := (sound_takeIn_of_liveOrFresh hm hn).shiftStart
    (mem_states_takeIn.2 (Or.inl rfl))
  have heq : (m.takeIn new).shiftStart m.automaton.start new =
      m.shiftStart m.automaton.start new := by
    refine ext_states (m := m.shiftStart m.automaton.start new) rfl rfl rfl ?_
    intro v
    show v ∈ ((m.automaton.states.insert new).insert new) ↔ v ∈ m.automaton.states.insert new
    rw [OrdSet.mem_insert, OrdSet.mem_insert, ← or_assoc, or_self]
  rw [← heq]
  exact hmoved

end Machine

/-! ## Traps -/

namespace Graph

variable {g : Graph}

/-- A new state leaves every other place as it was. -/
theorem node_add_of_ne {n : Node} {v : Vertex} (hv : v ≠ g.size) :
    (g.add n).2.node v = g.node v := by
  rw [node_add, if_neg hv]

/-- Identifiers are listed in ascending order. States with the same identifier may stand in any
order, so nothing is said about which comes first. -/
theorem pairwise_sortById (vs : List Vertex) :
    (g.sortById vs).Pairwise fun v w => (g.node v).id ≤ (g.node w).id := by
  have hsorted : (g.sortById vs).Pairwise fun v w =>
      decide ((g.node v).id ≤ (g.node w).id) = true := List.pairwise_mergeSort
    (fun u v w huv hvw => by simp only [decide_eq_true_eq] at *; omega)
    (fun v w => by simp only [Bool.or_eq_true, decide_eq_true_eq]; omega) vs
  exact hsorted.imp fun h => of_decide_eq_true h

/-- So are the identifiers of a set. -/
theorem pairwise_ids (vs : VertexSet) : (g.ids vs).Pairwise (· ≤ ·) := by
  rw [ids, List.pairwise_map]
  exact pairwise_sortById vs.toList

end Graph

namespace Machine

variable {m : Machine}

/-- The last of some numbers in ascending order is the greatest. If there are none, nothing has to
be shown of the number that stands in for it. -/
theorem le_getLastD {xs : List Int} (hxs : xs.Pairwise (· ≤ ·)) {x : Int} (hx : x ∈ xs) :
    x ≤ xs.getLastD 0 := by
  have hne : xs ≠ [] := List.ne_nil_of_mem hx
  rw [← List.dropLast_append_getLast hne] at hx hxs
  rw [List.getLastD_eq_getLast?, List.getLast?_eq_some_getLast hne, Option.getD_some]
  rcases List.mem_append.1 hx with hx | hx
  · exact (List.pairwise_append.1 hxs).2.2 x hx _ List.mem_cons_self
  · exact Int.le_of_eq (List.mem_singleton.1 hx)

/-- No state of the automaton has an identifier above the greatest one. -/
theorem id_le_greatestId {v : Vertex} (hv : v ∈ m.automaton.states) :
    (m.graph.node v).id ≤ m.greatestId :=
  le_getLastD (pairwise_ids _) (List.mem_map_of_mem (m.graph.mem_inOrder.2 hv))

/-- What is missing are symbols of the alphabet for which a state has no entry. An entry without
states would count as one, but there are none in an automaton that passes the check. -/
theorem mem_missingSteps {v : Vertex} {l : Label} : (v, l) ∈ m.missingSteps ↔
    v ∈ m.automaton.states ∧ l ∈ m.automaton.alphabet ∧
      (m.graph.node v).next.contains l = false := by
  rw [missingSteps, List.mem_flatMap]
  constructor
  · rintro ⟨u, hu, hmem⟩
    obtain ⟨k, hk, heq⟩ := List.mem_map.1 hmem
    obtain ⟨rfl, rfl⟩ := Prod.mk.inj heq
    obtain ⟨hk, hno⟩ := List.mem_filter.1 hk
    exact ⟨m.graph.mem_inOrder.1 hu, hk, by simpa using hno⟩
  · rintro ⟨hv, hl, hno⟩
    refine ⟨v, m.graph.mem_inOrder.2 hv, List.mem_map.2 ⟨l, ?_, rfl⟩⟩
    exact List.mem_filter.2 ⟨hl, by simpa using hno⟩

/-- The state that a trap is made of. -/
def trapNode (m : Machine) : Node :=
  { id := m.greatestId + 1, name := "trap state", isTrap := true }

/-- The edges that complete an automaton with a trap at a place. -/
def trapEdges (m : Machine) (trap : Vertex) : List Edge :=
  (m.missingSteps.map fun (v, l) => ⟨v, l, trap⟩) ++
    m.automaton.alphabet.toList.map fun l => ⟨trap, l, trap⟩

/-- Adding a trap, opened once: nothing is done if no step is missing, and otherwise the trap is put
into the graph and the edges are added to what is there. -/
theorem addTrap_eq : m.addTrap =
    if m.missingSteps = [] then (none, m)
    else (some m.graph.size,
      connectAll { m with graph := (m.graph.add m.trapNode).2 } (m.trapEdges m.graph.size)) := by
  rw [addTrap]
  cases hmissing : m.missingSteps with
  | nil => rfl
  | cons s ss =>
    rw [if_neg (List.cons_ne_nil s ss), trapEdges, hmissing]
    rfl

/-- The machine with a trap in its graph that is not yet a state of the automaton. -/
def withTrap (m : Machine) : Machine := { m with graph := (m.graph.add m.trapNode).2 }

/-- The trap stands at the first free place. -/
theorem node_trap : m.withTrap.graph.node m.graph.size = m.trapNode := by
  rw [withTrap, node_add, if_pos rfl]

/-- It is made without edges and without the start flag. -/
theorem spare_trap : m.withTrap.graph.Spare m.graph.size := by
  constructor
  · rw [withTrap, size_add]
    exact Nat.lt_succ_self _
  · constructor <;> rw [node_trap] <;> rfl
  · rw [node_trap]
    rfl

/-- A state of the automaton is not touched when the trap is put into the graph, as the place was
free. -/
theorem node_withTrap (hm : m.automaton.Framed m.graph) {v : Vertex}
    (hv : v ∈ m.automaton.states) : m.withTrap.graph.node v = m.graph.node v :=
  node_add_of_ne (Nat.ne_of_lt (hm.placed v hv))

theorem size_le_withTrap : m.graph.size ≤ m.withTrap.graph.size := by
  rw [withTrap, size_add]
  exact Nat.le_succ _

/-- The trap is the target of some edge, so it may be taken in before the edges are added. After
that all edges are between states of the automaton. -/
theorem addTrap_takeIn (hmissing : m.missingSteps ≠ []) :
    m.addTrap.2 = (m.withTrap.takeIn m.graph.size).connectAll (m.trapEdges m.graph.size) := by
  obtain ⟨⟨v, l⟩, hvl⟩ := List.exists_mem_of_ne_nil _ hmissing
  have hend : ∃ e ∈ m.trapEdges m.graph.size, m.graph.size = e.source ∨ m.graph.size = e.target :=
    ⟨⟨v, l, m.graph.size⟩, List.mem_append_left _ (List.mem_map.2 ⟨(v, l), hvl, rfl⟩), Or.inr rfl⟩
  rw [connectAll_takeIn hend, addTrap_eq, if_neg hmissing, withTrap]

/-- Each edge that completes an automaton leads from one of its states, or from the trap, to the
trap. -/
theorem ends_trapEdges : ∀ e ∈ m.trapEdges m.graph.size,
    e.source ∈ (m.withTrap.takeIn m.graph.size).automaton.states ∧
      e.target ∈ (m.withTrap.takeIn m.graph.size).automaton.states := by
  intro e he
  rcases List.mem_append.1 he with he | he
  · obtain ⟨⟨u, k⟩, huk, rfl⟩ := List.mem_map.1 he
    exact ⟨mem_states_takeIn.2 (Or.inr (mem_missingSteps.1 huk).1),
      mem_states_takeIn.2 (Or.inl rfl)⟩
  · obtain ⟨k, _, rfl⟩ := List.mem_map.1 he
    exact ⟨mem_states_takeIn.2 (Or.inl rfl), mem_states_takeIn.2 (Or.inl rfl)⟩

/-- A free place has no edges, and neither has the trap that is put there. So all places look alike
before and after, and the tables still agree. -/
theorem sameTables_withTrap (v : Vertex) : m.graph.SameTables m.withTrap.graph v := by
  by_cases hv : v = m.graph.size
  · rw [hv]
    constructor <;> rw [node_trap, node_eq_blank (Nat.le_refl _)] <;> rfl
  · exact .of_node_eq (node_add_of_ne hv)

/-- The trap is drawn with a number above all others, which is what makes it fresh. This is where
the states of the automaton have to be filled places. -/
theorem fresh_trap (hplaced : ∀ v ∈ m.automaton.states, v < m.graph.size) :
    m.withTrap.Fresh m.graph.size := by
  refine ⟨spare_trap.placed, spare_trap.unconnected, spare_trap.isStart_eq, ?_⟩
  intro u hu
  have hle := id_le_greatestId (m := m) hu
  rw [node_trap, withTrap, node_add_of_ne (Nat.ne_of_lt (hplaced u hu)), trapNode]
  dsimp only
  omega

/-- A trap reads the symbols of the alphabet and no others, so no symbol joins the alphabet. -/
theorem labelled_addTrap (hm : m.automaton.Labelled m.graph)
    (hplaced : ∀ v ∈ m.automaton.states, v < m.graph.size) :
    m.addTrap.2.automaton.Labelled m.addTrap.2.graph := by
  by_cases hmissing : m.missingSteps = []
  · rw [addTrap_eq, if_pos hmissing]
    exact hm
  have hnode : ∀ v ∈ m.automaton.states, m.withTrap.graph.node v = m.graph.node v :=
    fun v hv => node_add_of_ne (Nat.ne_of_lt (hplaced v hv))
  have hgrown : m.withTrap.automaton.Labelled m.withTrap.graph := by
    refine ⟨Automaton.wellFormed_iff.2 ⟨hm.start_mem, ?_, ?_, ?_⟩, ?_, hm.epsilon_not_mem⟩
    · intro v hv
      rw [hnode v hv]
      exact hm.isStart_iff hv
    · intro v hv w hw
      rw [hnode v hv, hnode w hw]
      exact hm.id_injective hv hw
    · exact hm.wellFormed.coherent.congr sameTables_withTrap
    · intro v hv l w hw
      rw [(sameTables_withTrap v).destinations_eq] at hw
      exact hm.label_mem v hv l w hw
  rw [addTrap_takeIn hmissing]
  exact (labelled_takeIn hgrown (fresh_trap hplaced)).connectAll ends_trapEdges

/-- The edges are those that were there, and those to the trap. -/
theorem mem_destinations_addTrap (hmissing : m.missingSteps ≠ []) {v w : Vertex} {l : Label} :
    w ∈ m.addTrap.2.graph.destinations v l ↔
      w ∈ m.graph.destinations v l ∨ ⟨v, l, w⟩ ∈ m.trapEdges m.graph.size := by
  rw [addTrap_takeIn hmissing, graph_connectAll, graph_takeIn, mem_destinations_linkAll,
    (sameTables_withTrap v).destinations_eq]

/-- Completing an automaton with a trap keeps it sound, whether a step was missing or not. -/
theorem sound_addTrap (hm : m.automaton.Sound m.graph) :
    m.addTrap.2.automaton.Sound m.addTrap.2.graph := by
  by_cases hmissing : m.missingSteps = []
  · rw [addTrap_eq, if_pos hmissing]
    exact hm
  have hgrown : m.withTrap.automaton.Sound m.withTrap.graph :=
    hm.congr_nodes (fun v hv => node_withTrap hm.framed hv) size_le_withTrap
  rw [addTrap_takeIn hmissing]
  exact (sound_takeIn hgrown (fresh_trap hm.placed)).connectAll ends_trapEdges

/-- The graph in which some states are flagged as traps, or not. -/
def flagTraps (g : Graph) (traps : VertexSet) (vs : List Vertex) : Graph :=
  vs.foldl (fun g v => g.update v fun n => { n with isTrap := decide (v ∈ traps) }) g

/-- Each of the listed states gets its flag set or cleared; the others keep the flag they have. -/
theorem node_flagTraps {g : Graph} {traps : VertexSet} {vs : List Vertex} {w : Vertex} :
    (flagTraps g traps vs).node w =
      if w ∈ vs then { g.node w with isTrap := decide (w ∈ traps) } else g.node w := by
  induction vs generalizing g with
  | nil => rfl
  | cons v vs ih =>
    rw [flagTraps, List.foldl_cons, ← flagTraps, ih, node_update]
    by_cases hwv : w = v
    · subst hwv
      simp
    · simp [hwv]

/-- Flags do not make a graph shrink. -/
theorem size_le_flagTraps (g : Graph) (traps : VertexSet) (vs : List Vertex) :
    g.size ≤ (flagTraps g traps vs).size := by
  induction vs generalizing g with
  | nil => exact Nat.le_refl _
  | cons v vs ih => exact Nat.le_trans (size_le_update v _) (ih _)

/-- Flagging traps keeps an automaton sound. No part of soundness is about that flag, so it is only
to be seen that the flagging touches nothing else. -/
theorem sound_markTraps (hm : m.automaton.Sound m.graph) :
    m.markTraps.automaton.Sound m.markTraps.graph := by
  have hnode : ∀ w, m.markTraps.graph.node w =
      if w ∈ m.automaton.states.toList
      then { m.graph.node w with isTrap := decide (w ∈ m.traps) } else m.graph.node w :=
    fun w => node_flagTraps
  refine hm.congr rfl rfl rfl hm.current_mem ?_ ?_ ?_ (size_le_flagTraps ..)
  · intro v _
    constructor <;> rw [hnode] <;> split <;> rfl
  · intro v _
    rw [hnode]
    split <;> rfl
  · intro v _
    rw [hnode]
    split <;> rfl

end Machine

/-! ## Joining two automata -/

/-- Two automata share neither states nor identifiers. -/
structure Automaton.Apart (g : Graph) (a b : Automaton) : Prop where
  not_mem : ∀ v ∈ a.states, v ∉ b.states
  id_ne : ∀ v ∈ a.states, ∀ w ∈ b.states, (g.node v).id ≠ (g.node w).id

namespace Automaton

variable {g : Graph} {a b : Automaton}

/-- Two states with one identifier lie in the same automaton, and so they are the same state. -/
theorem Apart.id_injective (hapart : a.Apart g b)
    (ha : ∀ v ∈ a.states, ∀ w ∈ a.states, (g.node v).id = (g.node w).id → v = w)
    (hb : ∀ v ∈ b.states, ∀ w ∈ b.states, (g.node v).id = (g.node w).id → v = w) :
    ∀ v ∈ a.states ∪ b.states, ∀ w ∈ a.states ∪ b.states,
      (g.node v).id = (g.node w).id → v = w := by
  intro v hv w hw e
  rcases OrdSet.mem_union.1 hv with hv | hv
  · rcases OrdSet.mem_union.1 hw with hw | hw
    · exact ha v hv w hw e
    · exact absurd e (hapart.id_ne v hv w hw)
  · rcases OrdSet.mem_union.1 hw with hw | hw
    · exact absurd e.symm (hapart.id_ne w hw v hv)
    · exact hb v hv w hw e

/-- If the start of the second automaton loses its flag, only that of the first one is left. -/
theorem isStart_iff_union (hstart : a.start ∈ a.states) (hstart' : b.start ∈ b.states)
    (ha : ∀ v ∈ a.states, (g.node v).isStart = true ↔ v = a.start)
    (hb : ∀ v ∈ b.states, (g.node v).isStart = true ↔ v = b.start)
    (disjoint : ∀ v ∈ a.states, v ∉ b.states) : ∀ v ∈ a.states ∪ b.states,
      (if v = b.start then false else (g.node v).isStart) = true ↔ v = a.start := by
  intro v hv
  by_cases hvb : v = b.start
  · rw [if_pos hvb]
    refine iff_of_false Bool.false_ne_true ?_
    rintro rfl
    exact disjoint _ hstart (hvb ▸ hstart')
  · rw [if_neg hvb]
    rcases OrdSet.mem_union.1 hv with hv | hv
    · exact ha v hv
    · refine iff_of_false (fun h => hvb ((hb v hv).1 h)) ?_
      rintro rfl
      exact disjoint _ hstart hv

end Automaton

namespace Machine

variable {m : Machine} {other : Automaton}

/-- The machine with the states of another automaton, whose start is no start any more. -/
def join (m : Machine) (other : Automaton) : Machine :=
  (m.takeOver other).flagStart other.start false

/-- The states of both automata become the states of the one. -/
theorem mem_states_join {v : Vertex} : v ∈ (m.join other).automaton.states ↔
    v ∈ m.automaton.states ∨ v ∈ other.states :=
  OrdSet.mem_union

theorem sameTables_join (v : Vertex) : m.graph.SameTables (m.join other).graph v :=
  sameTables_flagStart (m := m.takeOver other) other.start v false

theorem isAccepting_join (v : Vertex) :
    ((m.join other).graph.node v).isAccepting = (m.graph.node v).isAccepting :=
  isAccepting_flagStart (m := m.takeOver other) other.start v false

/-- The start of the other automaton is one no longer; all other flags stay. -/
theorem isStart_join (v : Vertex) : ((m.join other).graph.node v).isStart =
    if v = other.start then false else (m.graph.node v).isStart :=
  isStart_flagStart (m := m.takeOver other) other.start v false

theorem id_join (v : Vertex) :
    ((m.join other).graph.node v).id = (m.graph.node v).id :=
  id_flagStart (m := m.takeOver other) other.start v false

/-- No state but the start of the other automaton is changed. -/
theorem node_join_of_ne {v : Vertex} (hv : v ≠ other.start) :
    (m.join other).graph.node v = m.graph.node v :=
  (node_flagStart (m := m.takeOver other) other.start v false).trans (if_neg hv)

theorem size_join (ho : other.Framed m.graph) : (m.join other).graph.size = m.graph.size :=
  size_flagStart (m := m.takeOver other) false (ho.placed _ ho.start_mem)

/-- Automata without common states can be joined. Their edges stay where they are, and of the two
start flags one is cleared. -/
theorem framed_join (hm : m.automaton.Framed m.graph) (ho : other.Framed m.graph)
    (hapart : ∀ v ∈ m.automaton.states, v ∉ other.states) :
    (m.join other).automaton.Framed (m.join other).graph where
  start_mem := mem_states_join.2 (Or.inl hm.start_mem)
  isStart_iff v hv := by
    rw [isStart_join]
    exact Automaton.isStart_iff_union hm.start_mem ho.start_mem hm.isStart_iff ho.isStart_iff
      hapart v hv
  consistent := (hm.consistent.union ho.consistent).congr fun v _ => sameTables_join v
  placed v hv := by
    have hsize : m.graph.size ≤ (m.join other).graph.size := size_le_update ..
    rcases mem_states_join.1 hv with hv | hv
    · exact Nat.lt_of_lt_of_le (hm.placed v hv) hsize
    · exact Nat.lt_of_lt_of_le (ho.placed v hv) hsize

/-- An automaton without states brings in none, and no other start state loses its flag. An
automaton that was handed over is one without states, so joining it once more does no harm as long
as it did not start where the receiver starts. -/
theorem framed_join_of_spent (hm : m.automaton.Framed m.graph) (hspent : other.states = ∅)
    (hne : other.start ≠ m.automaton.start) :
    (m.join other).automaton.Framed (m.join other).graph := by
  have hstates : (m.join other).automaton.states = m.automaton.states := by
    ext v
    rw [mem_states_join, hspent]
    exact or_iff_left (OrdSet.not_mem_empty v)
  refine hm.congr hstates rfl (fun v _ => sameTables_join v) ?_ (Graph.size_le_update ..)
  intro v hv
  rw [isStart_join]
  split
  · next hvo =>
    rw [hvo] at hv ⊢
    exact (Bool.eq_false_iff.2 fun h => hne ((hm.isStart_iff _ hv).1 h)).symm
  · rfl

/-- The joined automaton passes the check if the two are apart: identifiers differ across them, and
neither counts edges from the other. -/
theorem labelled_join (hm : m.automaton.Labelled m.graph) (ho : other.Labelled m.graph)
    (hapart : m.automaton.Apart m.graph other) :
    (m.join other).automaton.Labelled (m.join other).graph where
  wellFormed := by
    simp only [Automaton.wellFormed_iff, isStart_join, id_join]
    exact ⟨mem_states_join.2 (Or.inl hm.start_mem),
      Automaton.isStart_iff_union hm.start_mem ho.start_mem hm.wellFormed.isStart_iff
        ho.wellFormed.isStart_iff hapart.not_mem,
      hapart.id_injective hm.wellFormed.id_injective ho.wellFormed.id_injective,
      (hm.wellFormed.coherent.union ho.wellFormed.coherent hapart.not_mem).congr sameTables_join⟩
  label_mem v hv l w hw hl := by
    rw [(sameTables_join v).destinations_eq] at hw
    rcases mem_states_join.1 hv with hv | hv
    · exact OrdSet.mem_union.2 (Or.inl (hm.label_mem v hv l w hw hl))
    · exact OrdSet.mem_union.2 (Or.inr (ho.label_mem v hv l w hw hl))
  epsilon_not_mem h := by
    rcases OrdSet.mem_union.1 h with h | h
    · exact hm.epsilon_not_mem h
    · exact ho.epsilon_not_mem h

/-- Joining keeps an automaton sound. -/
theorem sound_join (hm : m.automaton.Sound m.graph) (ho : other.Sound m.graph)
    (hapart : m.automaton.Apart m.graph other) :
    (m.join other).automaton.Sound (m.join other).graph := by
  apply (labelled_join hm.labelled ho.labelled hapart).sound
  · exact framed_join hm.framed ho.framed hapart.not_mem
  · intro v hv
    exact mem_states_join.2 (Or.inl (hm.current_mem v hv))

/-- Edges between states of the automaton that read nothing change it in no other way: they bring in
neither states nor symbols. -/
theorem automaton_connectAll_silent {es : List Edge} (hlabel : ∀ e ∈ es, e.label = .epsilon)
    (hes : ∀ e ∈ es, e.source ∈ m.automaton.states ∧ e.target ∈ m.automaton.states) :
    (m.connectAll es).automaton = m.automaton := by
  have hstates := states_connectAll hes
  have halphabet : (m.connectAll es).automaton.alphabet = m.automaton.alphabet := by
    ext l
    rw [mem_alphabet_connectAll]
    refine or_iff_left ?_
    rintro ⟨hne, e, he, rfl⟩
    exact hne (hlabel e he)
  rw [automaton_connectAll, hstates, halphabet]

/-- The machine in which some states accept no longer. -/
def unflag (m : Machine) (vs : List Vertex) : Machine :=
  vs.foldl (fun m v => m.flagAccepting v false) m

theorem automaton_unflag (vs : List Vertex) : (m.unflag vs).automaton = m.automaton := by
  induction vs generalizing m with
  | nil => rfl
  | cons v vs ih => exact ih

/-- The listed states accept no longer, and nothing else about them changes. -/
theorem node_unflag {vs : List Vertex} {w : Vertex} : (m.unflag vs).graph.node w =
    if w ∈ vs then { m.graph.node w with isAccepting := false } else m.graph.node w := by
  induction vs generalizing m with
  | nil => rfl
  | cons v vs ih =>
    rw [unflag, List.foldl_cons, ← unflag, ih, node_flagAccepting]
    by_cases hwv : w = v
    · subst hwv
      simp
    · simp [hwv]

theorem sameTables_unflag (vs : List Vertex) (v : Vertex) :
    m.graph.SameTables (m.unflag vs).graph v := by
  constructor <;> rw [node_unflag] <;> split <;> rfl

/-- Flags of states that are filled places fill no others. -/
theorem size_unflag {vs : List Vertex} (hvs : ∀ v ∈ vs, v < m.graph.size) :
    (m.unflag vs).graph.size = m.graph.size := by
  induction vs generalizing m with
  | nil => rfl
  | cons v vs ih =>
    have hsize := size_flagAccepting false (hvs v List.mem_cons_self)
    rw [unflag, List.foldl_cons, ← unflag, ih, hsize]
    intro w hw
    rw [hsize]
    exact hvs w (List.mem_cons_of_mem v hw)

theorem size_le_unflag (vs : List Vertex) : m.graph.size ≤ (m.unflag vs).graph.size := by
  induction vs generalizing m with
  | nil => exact Nat.le_refl _
  | cons v vs ih =>
    exact Nat.le_trans (Graph.size_le_update v _) (ih (m := m.flagAccepting v false))

/-- Whether states accept is not looked at by what is said of framed automata. -/
theorem framed_unflag (hm : m.automaton.Framed m.graph) (vs : List Vertex) :
    (m.unflag vs).automaton.Framed (m.unflag vs).graph := by
  induction vs generalizing m with
  | nil => exact hm
  | cons v vs ih => exact ih (hm.flagAccepting v false)

/-- Nor by the check. -/
theorem labelled_unflag (hm : m.automaton.Labelled m.graph) (vs : List Vertex) :
    (m.unflag vs).automaton.Labelled (m.unflag vs).graph := by
  rw [automaton_unflag]
  apply hm.congr (sameTables_unflag vs)
  · intro v
    rw [node_unflag]
    split <;> rfl
  · intro v
    rw [node_unflag]
    split <;> rfl

/-! ## Reading on in another automaton -/

/-- The edges along which a machine reads on in another automaton. -/
def bridges (m : Machine) (other : Automaton) : List Edge :=
  (m.graph.inOrder (m.automaton.accepting m.graph)).map fun v => ⟨v, .epsilon, other.start⟩

/-- Reading on, opened once: the automata are joined, each state that accepted leads on to the start
of the other one, and then it accepts no longer. -/
theorem append_eq : m.append other =
    ((m.join other).connectAll (m.bridges other)).unflag
      (m.graph.inOrder (m.automaton.accepting m.graph)) := rfl

/-- The new edges lead from what accepted to the start of the other automaton, without reading. -/
theorem mem_bridges {v w : Vertex} {l : Label} : ⟨v, l, w⟩ ∈ m.bridges other ↔
    (v ∈ m.automaton.states ∧ (m.graph.node v).isAccepting = true) ∧
      l = .epsilon ∧ w = other.start := by
  rw [bridges, List.mem_map]
  constructor
  · rintro ⟨u, hu, heq⟩
    obtain ⟨rfl, rfl, rfl⟩ := Edge.mk.inj heq
    exact ⟨OrdSet.mem_filter.1 (m.graph.mem_inOrder.1 hu), rfl, rfl⟩
  · rintro ⟨hv, rfl, rfl⟩
    exact ⟨v, m.graph.mem_inOrder.2 (OrdSet.mem_filter.2 hv), rfl⟩

/-- Whatever accepts leads to a state of one of the automata. Nothing else is said of the other
automaton, which may have handed its states over before. -/
def Attaches (m : Machine) (other : Automaton) : Prop :=
  ∀ v ∈ m.automaton.states, (m.graph.node v).isAccepting = true →
    other.start ∈ m.automaton.states ∨ other.start ∈ other.states

/-- An automaton that starts in a state of its own can be attached. -/
theorem attaches_of_mem (ho : other.start ∈ other.states) : m.Attaches other :=
  fun _ _ _ => Or.inr ho

/-- The new edges lead between states of the joined automaton. -/
theorem Attaches.ends_bridges (h : m.Attaches other) : ∀ e ∈ m.bridges other,
    e.source ∈ (m.join other).automaton.states ∧ e.target ∈ (m.join other).automaton.states := by
  rintro ⟨v, l, w⟩ he
  obtain ⟨⟨hv, hacc⟩, _, rfl⟩ := mem_bridges.1 he
  exact ⟨mem_states_join.2 (Or.inl hv), mem_states_join.2 (h v hv hacc)⟩

/-- Where nothing accepts, nothing is read on: no edge is made, and the states are joined all the
same. -/
theorem append_eq_join (h : ∀ v ∈ m.automaton.states, (m.graph.node v).isAccepting = false) :
    m.append other = m.join other := by
  have hnone : m.graph.inOrder (m.automaton.accepting m.graph) = [] := by
    apply List.eq_nil_iff_forall_not_mem.2
    intro v hv
    obtain ⟨hmem, hacc⟩ := OrdSet.mem_filter.1 (m.graph.mem_inOrder.1 hv)
    exact Bool.false_ne_true ((h v hmem).symm.trans hacc)
  rw [append_eq, bridges, hnone]
  rfl

/-- What keeps an automaton framed when it is joined keeps it framed when it reads on. -/
theorem Attaches.framed_append (h : m.Attaches other)
    (hjoin : (m.join other).automaton.Framed (m.join other).graph) :
    (m.append other).automaton.Framed (m.append other).graph := by
  rw [append_eq]
  apply framed_unflag
  exact hjoin.connectAll h.ends_bridges

/-- So automata without common states can be read one after the other. -/
theorem framed_append (hm : m.automaton.Framed m.graph) (ho : other.Framed m.graph)
    (hapart : ∀ v ∈ m.automaton.states, v ∉ other.states) :
    (m.append other).automaton.Framed (m.append other).graph :=
  (attaches_of_mem ho.start_mem).framed_append (framed_join hm ho hapart)

/-- The joined automaton passes the check, and its alphabet has the symbols of its edges. The edges
between the two are silent and need no symbol. -/
theorem labelled_append (hm : m.automaton.Labelled m.graph) (ho : other.Labelled m.graph)
    (hapart : m.automaton.Apart m.graph other) :
    (m.append other).automaton.Labelled (m.append other).graph := by
  rw [append_eq]
  apply labelled_unflag
  exact (labelled_join hm ho hapart).connectAll (attaches_of_mem ho.start_mem).ends_bridges

/-- Joining takes over states and alphabet and changes the automaton in no other way. In particular
it starts where it did and remains where it was. -/
theorem Attaches.automaton_append (h : m.Attaches other) :
    (m.append other).automaton = { m.automaton with
      states := m.automaton.states ∪ other.states
      alphabet := m.automaton.alphabet ∪ other.alphabet } := by
  rw [append_eq, automaton_unflag, automaton_connectAll_silent]
  · rfl
  · rintro ⟨v, l, w⟩ he
    exact (mem_bridges.1 he).2.1
  · exact h.ends_bridges

theorem automaton_append (ho : other.start ∈ other.states) :
    (m.append other).automaton = { m.automaton with
      states := m.automaton.states ∪ other.states
      alphabet := m.automaton.alphabet ∪ other.alphabet } :=
  (attaches_of_mem ho).automaton_append

/-- Joining keeps an automaton sound, if the two are apart and both were sound. -/
theorem sound_append (hm : m.automaton.Sound m.graph) (ho : other.Sound m.graph)
    (hapart : m.automaton.Apart m.graph other) :
    (m.append other).automaton.Sound (m.append other).graph := by
  apply (labelled_append hm.labelled ho.labelled hapart).sound
  · exact framed_append hm.framed ho.framed hapart.not_mem
  · rw [automaton_append ho.start_mem]
    intro v hv
    exact OrdSet.mem_union.2 (Or.inl (hm.current_mem v hv))

/-- The edges are those of both automata, and those from what accepted to the start of the other
one. -/
theorem mem_destinations_append {v w : Vertex} {l : Label} :
    w ∈ (m.append other).graph.destinations v l ↔ w ∈ m.graph.destinations v l ∨
      (v ∈ m.automaton.states ∧ (m.graph.node v).isAccepting = true) ∧
        l = .epsilon ∧ w = other.start := by
  rw [append_eq, (sameTables_unflag _ v).destinations_eq, graph_connectAll,
    mem_destinations_linkAll, mem_bridges, (sameTables_join v).destinations_eq]

/-- Only what accepts in the other automaton accepts in the joined one. Stated for every place, so
that states outside of both are covered as well. -/
theorem isAccepting_append (v : Vertex) : ((m.append other).graph.node v).isAccepting =
    ((m.graph.node v).isAccepting && decide (v ∉ m.automaton.states)) := by
  have hacc : ((((m.join other).connectAll (m.bridges other)).graph.node v)).isAccepting =
      (m.graph.node v).isAccepting := by
    rw [graph_connectAll, isAccepting_eq_of_shell_eq (shell_linkAll _ v), isAccepting_join]
  rw [append_eq, node_unflag]
  simp only [mem_inOrder, Automaton.accepting, OrdSet.mem_filter]
  -- the flag is taken off at all accepting states of the first automaton
  by_cases hv : v ∈ m.automaton.states
  · by_cases hva : (m.graph.node v).isAccepting = true
    · rw [if_pos ⟨hv, hva⟩]
      simp [hv]
    · rw [if_neg fun h => hva h.2, hacc]
      simp [hva]
  · rw [if_neg fun h => hv h.1, hacc]
    simp [hv]

/-- The joined automaton accepts where the other one did. -/
theorem accepting_append (ho : other.start ∈ other.states)
    (disjoint : ∀ v ∈ m.automaton.states, v ∉ other.states) :
    (m.append other).automaton.accepting (m.append other).graph = other.accepting m.graph := by
  ext v
  simp only [Automaton.accepting, OrdSet.mem_filter, isAccepting_append, automaton_append ho,
    OrdSet.mem_union, Bool.and_eq_true, decide_eq_true_eq]
  constructor
  · rintro ⟨hv, hacc, hnot⟩
    exact ⟨hv.resolve_left hnot, hacc⟩
  · rintro ⟨hv, hacc⟩
    exact ⟨Or.inr hv, hacc, fun hmem => disjoint v hmem hv⟩

/-- Identifiers stay, so that whoever numbers the states on can rely on them. -/
theorem id_append (v : Vertex) :
    ((m.append other).graph.node v).id = (m.graph.node v).id := by
  have hid : ((((m.join other).connectAll (m.bridges other)).graph.node v)).id =
      (m.graph.node v).id := by
    rw [graph_connectAll, id_eq_of_shell_eq (shell_linkAll _ v), id_join]
  rw [append_eq, node_unflag, ← hid]
  split <;> rfl

/-- Joining changes no state outside the first automaton but the start of the second. A third
automaton is out of its reach. -/
theorem node_append_of_ne {v : Vertex} (hv : v ∉ m.automaton.states) (hne : v ≠ other.start) :
    (m.append other).graph.node v = m.graph.node v := by
  have hnot : v ∉ m.graph.inOrder (m.automaton.accepting m.graph) :=
    fun h => hv (OrdSet.mem_filter.1 (m.graph.mem_inOrder.1 h)).1
  rw [append_eq, node_unflag, if_neg hnot, graph_connectAll, node_linkAll_of_not_mem]
  · exact node_join_of_ne hne
  · rintro ⟨u, l, w⟩ he
    obtain ⟨⟨hu, _⟩, _, rfl⟩ := mem_bridges.1 he
    refine ⟨?_, hne⟩
    rintro rfl
    exact hv hu

/-- A state of neither automaton is not changed at all. -/
theorem node_append_of_not_mem (ho : other.Sound m.graph) {v : Vertex}
    (hv : v ∉ m.automaton.states) (hvo : v ∉ other.states) :
    (m.append other).graph.node v = m.graph.node v := by
  refine node_append_of_ne hv ?_
  rintro rfl
  exact hvo ho.start_mem

theorem size_le_append : m.graph.size ≤ (m.append other).graph.size := by
  have hjoin : m.graph.size ≤ (m.join other).graph.size := Graph.size_le_update ..
  rw [append_eq]
  refine Nat.le_trans hjoin (Nat.le_trans ?_ (size_le_unflag _))
  rw [graph_connectAll]
  exact Graph.size_le_linkAll _

/-- No place is filled by joining two automata. -/
theorem size_append (hm : m.automaton.Sound m.graph) (ho : other.Sound m.graph) :
    (m.append other).graph.size = m.graph.size := by
  have hjoin : (m.join other).graph.size = m.graph.size := size_join ho.framed
  have hconnected : ((m.join other).connectAll (m.bridges other)).graph.size = m.graph.size := by
    rw [graph_connectAll, size_linkAll, hjoin]
    rintro ⟨v, l, w⟩ he
    obtain ⟨⟨hv, _⟩, _, rfl⟩ := mem_bridges.1 he
    rw [hjoin]
    exact ⟨hm.placed v hv, ho.placed _ ho.start_mem⟩
  rw [append_eq, size_unflag, hconnected]
  intro v hv
  rw [hconnected]
  exact hm.placed v (OrdSet.mem_filter.1 (m.graph.mem_inOrder.1 hv)).1

end Machine

end PatternAutomata
