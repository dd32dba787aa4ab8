/-
The fragment of a tree accepts what the tree describes.

A construction that draws from a supply leaves the states alone that were there before, and
gives the states it adds the next identifiers, one after the other (`Supply.Grows`). So the
states of a fragment are those that were added while it was built, and fragments that are
built one after the other share neither states nor identifiers.

For each way of building there is one statement of the form: if the parts are built with
these languages, the whole is built with that one (`Builder.Builds`). A property of constructions
that is handed on in this way (`Builder.HandedOn`) is handed on by repetitions within a range, and
so it holds of all trees by induction on the tree (`Tree.build_induction`). The statement about
trees (`Tree.builds`) is one case of it.
-/
import PatternAutomata.Fragment
import Mathlib.Algebra.BigOperators.Group.List.Defs
import PatternAutomata.Proofs.Words.Parts
import PatternAutomata.Syntax.Language

set_option autoImplicit false

namespace PatternAutomata

open PatternAutomata.Graph Computability

/-! ## Supplies -/

/-- What drawing states from a supply leaves behind: older states are as they were, and new
ones have the identifiers that come next. -/
structure Supply.Grows (s s' : Supply) : Prop where
  size_le : s.graph.size ≤ s'.graph.size
  nextId_eq : s'.nextId = s.nextId + ((s'.graph.size : Int) - s.graph.size)
  node_eq : ∀ v < s.graph.size, s'.graph.node v = s.graph.node v
  id_eq : ∀ v : Nat, s.graph.size ≤ v → v < s'.graph.size →
    (s'.graph.node v).id = s.nextId + ((v : Int) - s.graph.size)

namespace Supply.Grows

variable {s s' s'' : Supply}

theorem refl (s : Supply) : s.Grows s where
  size_le := Nat.le_refl _
  nextId_eq := by omega
  node_eq _ _ := rfl
  id_eq v hle hlt := by omega

/-- One construction after the other draws from the same supply. A new state of the first one is an
older state for the second, which leaves it alone. -/
theorem trans (h : s.Grows s') (h' : s'.Grows s'') : s.Grows s'' where
  size_le := Nat.le_trans h.size_le h'.size_le
  nextId_eq := by
    have hfirst := h.nextId_eq
    have hsecond := h'.nextId_eq
    omega
  node_eq v hv := (h'.node_eq v (Nat.lt_of_lt_of_le hv h.size_le)).trans (h.node_eq v hv)
  id_eq v hle hlt := by
    by_cases hv : v < s'.graph.size
    · rw [h'.node_eq v hv, h.id_eq v hle hv]
    · have hid := h'.id_eq v (Nat.le_of_not_lt hv) hlt
      have hnext := h.nextId_eq
      omega

/-- Work that fills no places and keeps identifiers and the older states draws nothing. All edits
that a fragment undergoes while it is built are of this kind. -/
theorem edit (h : s.Grows s') {g : Graph} (size_eq : g.size = s'.graph.size)
    (id_eq : ∀ v, (g.node v).id = (s'.graph.node v).id)
    (node_eq : ∀ v < s.graph.size, g.node v = s'.graph.node v) :
    s.Grows { s' with graph := g } where
  size_le := by
    show s.graph.size ≤ g.size
    rw [size_eq]
    exact h.size_le
  nextId_eq := by
    show s'.nextId = s.nextId + ((g.size : Int) - s.graph.size)
    rw [size_eq]
    exact h.nextId_eq
  node_eq v hv := (node_eq v hv).trans (h.node_eq v hv)
  id_eq v hle hlt := by
    have hlt' : v < g.size := hlt
    rw [size_eq] at hlt'
    exact (id_eq v).trans (h.id_eq v hle hlt')

/-- New states have different identifiers, so automata made of different ones are apart. This is
what the numbering is for, and why fragments can be joined without further ado. -/
theorem apart (h : s.Grows s') {a b : Automaton}
    (ha : ∀ v ∈ a.states, s.graph.size ≤ v ∧ v < s'.graph.size)
    (hb : ∀ v ∈ b.states, s.graph.size ≤ v ∧ v < s'.graph.size)
    (disjoint : ∀ v ∈ a.states, v ∉ b.states) : a.Apart s'.graph b where
  not_mem := disjoint
  id_ne (v : Nat) hv (w : Nat) hw e := by
    rw [h.id_eq v (ha v hv).1 (ha v hv).2, h.id_eq w (hb w hw).1 (hb w hw).2] at e
    have hvw : v = w := by omega
    exact disjoint v hv (hvw ▸ hw)

end Supply.Grows

/-! ## Fragments -/

/-- An automaton that was built between two stages of a supply: its states are those that were
added, and it recognizes a language. -/
structure Fragment (useful : Prop) (L : Language Label) (s s' : Supply) (a : Automaton) :
    Prop extends a.Recognizes useful s'.graph L where
  grows : s.Grows s'
  mem_states : ∀ v : Nat, v ∈ a.states ↔ s.graph.size ≤ v ∧ v < s'.graph.size

namespace Fragment

variable {useful : Prop} {L M : Language Label} {s s' s'' : Supply} {a b : Automaton}

/-- What is built later leaves a fragment as it is, since the states of the fragment are older
states by then. -/
theorem later (ha : Fragment useful L s s' a) (h : s'.Grows s'') :
    a.Recognizes useful s''.graph L :=
  ha.toRecognizes.congr (fun v hv => h.node_eq v ((ha.mem_states v).1 hv).2) h.size_le

/-- Less need be promised: a fragment every state of which is known to be useful is one of which
this is known under some condition. -/
theorem imp {useful' : Prop} (ha : Fragment useful L s s' a) (h : useful' → useful) :
    Fragment useful' L s s' a :=
  { ha with
    alive := fun hu => ha.alive (h hu)
    occurs := fun hu => ha.occurs (h hu) }

/-- Fragments that are built one after the other are apart: their states lie in ranges that follow
each other. -/
theorem apart (ha : Fragment useful L s s' a) (hb : Fragment useful M s' s'' b) :
    a.Apart s''.graph b := by
  apply (ha.grows.trans hb.grows).apart
  · intro v hv
    obtain ⟨hle, hlt⟩ := (ha.mem_states v).1 hv
    exact ⟨hle, Nat.lt_of_lt_of_le hlt hb.grows.size_le⟩
  · intro v hv
    obtain ⟨hle, hlt⟩ := (hb.mem_states v).1 hv
    exact ⟨Nat.le_trans ha.grows.size_le hle, hlt⟩
  · intro v hv hv'
    exact Nat.not_lt.2 ((hb.mem_states v).1 hv').1 ((ha.mem_states v).1 hv).2

/-- Reading on in the fragment that was built next makes one fragment of both. The states are those
of both ranges, which together are the range from the beginning of the first to the end of the
second. -/
theorem append (ha : Fragment useful L s s' a) (hb : Fragment useful M s' s'' b) :
    Fragment useful (L * M) s
      { s'' with graph := (Machine.append { graph := s''.graph, automaton := a } b).graph }
      (Machine.append { graph := s''.graph, automaton := a } b).automaton := by
  have ha' := ha.later hb.grows
  have hapart := ha.apart hb
  have hsize := Machine.size_append (m := { graph := s''.graph, automaton := a }) ha'.sound hb.sound
  refine ⟨Machine.recognizes_append ha' hb.toRecognizes hapart, ?_, ?_⟩
  · apply (ha.grows.trans hb.grows).edit hsize
    · exact fun v => Machine.id_append v
    · intro v hv
      apply Machine.node_append_of_not_mem (m := { graph := s''.graph, automaton := a }) hb.sound
      · exact fun h => Nat.not_lt.2 ((ha.mem_states v).1 h).1 hv
      · exact fun h => Nat.not_lt.2 (Nat.le_trans ha.grows.size_le ((hb.mem_states v).1 h).1) hv
  · intro v
    have hsub := ha.grows.size_le
    have hsub' := hb.grows.size_le
    show v ∈ (Machine.append { graph := s''.graph, automaton := a } b).automaton.states ↔
      _ ∧ v < (Machine.append { graph := s''.graph, automaton := a } b).graph.size
    rw [Machine.automaton_append (m := { graph := s''.graph, automaton := a }) hb.sound.start_mem,
      hsize]
    show v ∈ a.states ∪ b.states ↔ _
    rw [OrdSet.mem_union, ha.mem_states, hb.mem_states]
    show _ ↔ _ ∧ v < s''.graph.size
    omega

end Fragment

namespace Builder

/-- A construction that, whatever the supply, builds a fragment with a language. -/
def Builds (useful : Prop) (b : Builder Automaton) (L : Language Label) : Prop :=
  ∀ s, Fragment useful L s (b s).2 (b s).1

variable {useful : Prop}

/-! ## New states -/

/-- A new state is put at the first free place and gets the next identifier. -/
theorem newState_eq (start accepting : Bool) (s : Supply) :
    newState start accepting s = (s.graph.size,
      ⟨(s.graph.add { id := s.nextId, isStart := start, isAccepting := accepting }).2,
        s.nextId + 1⟩) := rfl

/-- Drawing a state leaves all others as they were. -/
theorem grows_newState (start accepting : Bool) (s : Supply) :
    s.Grows (newState start accepting s).2 := by
  rw [newState_eq]
  constructor
  · show s.graph.size ≤ (s.graph.add _).2.size
    rw [size_add]
    exact Nat.le_succ _
  · show s.nextId + 1 = s.nextId + (((s.graph.add _).2.size : Int) - s.graph.size)
    rw [size_add]
    omega
  · intro v hv
    exact node_add_of_ne (Nat.ne_of_lt hv)
  · intro v hle hlt
    have hlt' : v < (s.graph.add
      { id := s.nextId, isStart := start, isAccepting := accepting }).2.size := hlt
    rw [size_add] at hlt'
    have hv : v = s.graph.size := by omega
    show ((s.graph.add _).2.node v).id = _
    rw [node_add, if_pos hv]
    show s.nextId = _
    omega

/-- The state that is drawn has its flags, the next identifier, and nothing else. -/
theorem node_newState (start accepting : Bool) (s : Supply) :
    (newState start accepting s).2.graph.node s.graph.size =
      { id := s.nextId, isStart := start, isAccepting := accepting } := by
  rw [newState_eq]
  exact node_add.trans (if_pos rfl)

theorem size_newState (start accepting : Bool) (s : Supply) :
    (newState start accepting s).2.graph.size = s.graph.size + 1 := size_add _

/-- A new state has no edges. -/
theorem unconnected_newState (start accepting : Bool) (s : Supply) :
    (newState start accepting s).2.graph.Unconnected s.graph.size := by
  constructor <;> rw [node_newState]

/-- A new start state is a fragment by itself, for the empty word if it accepts and for no word at
all otherwise. All fragments that are not made of others begin with one. -/
theorem fragment_newState (accepting : Bool) (s : Supply) :
    Fragment (accepting = true) (if accepting then 1 else 0) s (newState true accepting s).2
      { start := s.graph.size, states := {s.graph.size}, alphabet := ∅ } := by
  have hunconnected := unconnected_newState true accepting s
  -- a state without edges can only stop
  have hlang : (newState true accepting s).2.graph.languageFrom s.graph.size =
      if accepting then 1 else 0 := by
    rw [languageFrom_of_no_way hunconnected.destinations_eq, node_newState]
  refine ⟨⟨?_, rfl, hlang, ?_, ?_⟩, grows_newState true accepting s, ?_⟩
  · apply Automaton.Sound.of_consistent
    · exact OrdSet.mem_singleton.2 rfl
    · intro v hv
      rw [OrdSet.mem_singleton.1 hv, node_newState]
      exact iff_of_true rfl rfl
    · intro v hv w hw _
      rw [OrdSet.mem_singleton.1 hv, OrdSet.mem_singleton.1 hw]
    · exact hunconnected.consistent
    · intro v hv
      rw [OrdSet.mem_singleton.1 hv, size_newState]
      exact Nat.lt_succ_self _
    · intro v hv l w hw _
      rw [OrdSet.mem_singleton.1 hv, hunconnected.destinations_eq] at hw
      exact absurd hw (OrdSet.not_mem_empty w)
    · exact OrdSet.not_mem_empty _
    · intro v hv
      exact absurd hv (OrdSet.not_mem_empty v)
  · intro hacc v hv
    rw [show v = s.graph.size from OrdSet.mem_singleton.1 hv, hlang, if_pos hacc]
    exact ⟨[], Language.nil_mem_one⟩
  · intro _ l hl
    exact absurd hl (OrdSet.not_mem_empty l)
  · intro v
    rw [size_newState]
    show v ∈ ({s.graph.size} : VertexSet) ↔ s.graph.size ≤ v ∧ _
    rw [OrdSet.mem_singleton]
    show v = s.graph.size ↔ _
    omega

/-- A state that is drawn after a fragment was built is fresh for it: it has no edges, and its
identifier comes after those of the fragment. -/
theorem fresh_newState {L : Language Label} {s s' : Supply} {a : Automaton}
    (ha : Fragment useful L s s' a) (accepting : Bool) :
    Machine.Fresh { graph := (newState false accepting s').2.graph, automaton := a }
      s'.graph.size := by
  have hgrows := grows_newState false accepting s'
  refine ⟨?_, unconnected_newState false accepting s', ?_, ?_⟩
  · show s'.graph.size < (newState false accepting s').2.graph.size
    rw [size_newState]
    exact Nat.lt_succ_self _
  · show ((newState false accepting s').2.graph.node s'.graph.size).isStart = false
    rw [node_newState]
  · intro (u : Nat) hu
    obtain ⟨hle, hlt⟩ := (ha.mem_states u).1 hu
    have hnext := ha.grows.nextId_eq
    show ((newState false accepting s').2.graph.node u).id ≠
      ((newState false accepting s').2.graph.node s'.graph.size).id
    rw [node_newState, hgrows.node_eq u hlt, ha.grows.id_eq u hle hlt]
    show s.nextId + ((u : Int) - s.graph.size) ≠ s'.nextId
    omega

/-! ## Fragments without parts -/

/-- The fragment for nothing is a start state that accepts. -/
theorem builds_nothing : Builds useful nothing 1 := fun s =>
  (fragment_newState true s).imp fun _ => rfl

/-- An edge between two states that are drawn for it may as well be added to the first of them
alone, since it takes in its end by itself. With this the fragment of a symbol is an edge to a fresh
state. -/
theorem edit_connect_eq (start stop : Vertex) (l : Label) (s : Supply) {m : Machine}
    (hm : m = { graph := s.graph,
                automaton := { start := start, states := {start}, alphabet := ∅ } }) :
    edit { start := start, states := .ofList [start, stop], alphabet := ∅ }
        (·.connect ⟨start, l, stop⟩) s =
      ((m.connect ⟨start, l, stop⟩).automaton,
        { s with graph := (m.connect ⟨start, l, stop⟩).graph }) := by
  rw [← Machine.connect_onStates (m := m) (S := .ofList [start, stop])]
  · rw [hm]
    rfl
  · intro v
    rw [hm]
    show v ∈ OrdSet.ofList [start, stop] ∨ _ ∨ _ ↔ v ∈ ({start} : VertexSet) ∨ _ ∨ _
    simp

/-- The fragment of a symbol reads that symbol, and the silent one reads nothing. What it recognizes
is known of an edge to a fresh state (`Machine.recognizes_letter`); the rest is to see which states
were drawn, and that no others were touched. -/
theorem builds_letter (l : Label) : Builds useful (letter l) {l.word} := by
  intro s
  -- the start state is drawn first, then the one it leads to
  have hlone := fragment_newState false s
  have hsize : (newState true false s).2.graph.size = s.graph.size + 1 := size_newState true false s
  have hbare := unconnected_newState true false s
  have hold : letter l s = edit
      { start := s.graph.size, states := .ofList [s.graph.size,
          (newState true false s).2.graph.size], alphabet := ∅ }
      (·.connect ⟨s.graph.size, l, (newState true false s).2.graph.size⟩)
      (newState false true (newState true false s).2).2 := rfl
  rw [hold]
  generalize (newState true false s).2 = first at *
  have hfresh := fresh_newState hlone true
  have hgrows := grows_newState false true first
  have hsize' := size_newState false true first
  have hstop := node_newState false true first
  generalize (newState false true first).2 = second at *
  have hlater := hlone.later hgrows
  have hlt : s.graph.size < first.graph.size := by omega
  let lone : Machine :=
    { graph := second.graph
      automaton := { start := s.graph.size, states := {s.graph.size}, alphabet := ∅ } }
  have hrecognizes := @Machine.recognizes_letter useful lone _
    { hlater with alive := nofun, occurs := nofun } (fun v => OrdSet.mem_singleton) rfl
    ((SameTables.of_node_eq (hgrows.node_eq _ hlt)).unconnected hbare) hfresh
    (congrArg Node.isAccepting hstop) l
  -- adding the edge keeps identifiers and older states and fills no place
  have hid : ∀ v, ((lone.connect ⟨s.graph.size, l, first.graph.size⟩).graph.node v).id =
      (second.graph.node v).id := Machine.id_connect _
  have hnode : ∀ v < s.graph.size,
      (lone.connect ⟨s.graph.size, l, first.graph.size⟩).graph.node v = second.graph.node v :=
    fun v hv =>
      Machine.node_connect_of_ne (Nat.ne_of_lt hv) (Nat.ne_of_lt (Nat.lt_trans hv hlt))
  have hsize'' : (lone.connect ⟨s.graph.size, l, first.graph.size⟩).graph.size =
      second.graph.size := by
    apply Machine.size_connect
    · show s.graph.size < second.graph.size
      omega
    · show first.graph.size < second.graph.size
      omega
  -- the states of the fragment are the two that were drawn
  have hmem : ∀ v : Nat, v ∈ (lone.connect ⟨s.graph.size, l, first.graph.size⟩).automaton.states ↔
      v = s.graph.size ∨ v = first.graph.size := by
    intro v
    rw [Machine.mem_states_connect, ← or_assoc]
    refine or_congr ?_ Iff.rfl
    exact (or_congr OrdSet.mem_singleton Iff.rfl).trans or_self_iff
  rw [edit_connect_eq s.graph.size first.graph.size l second (m := lone) rfl]
  generalize lone.connect ⟨s.graph.size, l, first.graph.size⟩ = made at *
  refine ⟨hrecognizes, (hlone.grows.trans hgrows).edit hsize'' hid hnode, ?_⟩
  intro v
  show v ∈ made.automaton.states ↔ s.graph.size ≤ v ∧ v < made.graph.size
  rw [hmem, hsize'', hsize', hsize]
  omega

/-! ## In sequence -/

/-- Reading on in what is built next. -/
def readOn (a : Automaton) (b : Builder Automaton) : Builder Automaton := do
  let next ← b
  edit a (·.append next)

/-- Reading on in fragments that are built one after the other. By induction on the list, with the
fragment that has been built so far as the one to read on in. -/
theorem fragment_foldlM_readOn {L : Language Label} {s s' : Supply} {a : Automaton}
    (ha : Fragment useful L s s' a) {parts : List (Builder Automaton × Language Label)}
    (hparts : ∀ e ∈ parts, Builds useful e.1 e.2) {b : Builder Automaton}
    (hb : (parts.map Prod.fst).foldlM readOn a = b) :
    Fragment useful (L * (parts.map Prod.snd).prod) s (b s').2 (b s').1 := by
  rw [← hb]
  clear hb
  induction parts generalizing L s' a with
  | nil =>
    rw [List.map_nil, List.prod_nil, mul_one]
    exact ha
  | cons e parts ih =>
    have hnext := ha.append (hparts e List.mem_cons_self s')
    rw [List.map_cons, List.map_cons, List.prod_cons, ← mul_assoc]
    exact ih hnext fun e' he' => hparts e' (List.mem_cons_of_mem e he')

/-- Constructions in sequence build the words put together. No construction at all builds the
fragment for nothing, so that the first one needs a case of its own. -/
theorem builds_sequence {parts : List (Builder Automaton × Language Label)}
    (hparts : ∀ e ∈ parts, Builds useful e.1 e.2) :
    Builds useful (sequence (parts.map Prod.fst)) (parts.map Prod.snd).prod := by
  cases parts with
  | nil => exact builds_nothing
  | cons e parts =>
    intro s
    rw [List.map_cons, List.map_cons, List.prod_cons]
    exact fragment_foldlM_readOn (hparts e List.mem_cons_self s)
      (fun e' he' => hparts e' (List.mem_cons_of_mem e he')) rfl

/-! ## As a choice -/

/-- Fragments that were built one after the other. -/
inductive Pieces (useful : Prop) : Supply → Supply → List (Automaton × Language Label) → Prop where
  | nil (s : Supply) : Pieces useful s s []
  | cons {s s' s'' : Supply} {a : Automaton} {L : Language Label}
      {pieces : List (Automaton × Language Label)} (first : Fragment useful L s s' a)
      (rest : Pieces useful s' s'' pieces) : Pieces useful s s'' ((a, L) :: pieces)

namespace Pieces

variable {s s' s'' : Supply} {pieces : List (Automaton × Language Label)}

/-- Building several pieces draws from the supply like building one. -/
theorem grows (h : Pieces useful s s' pieces) : s.Grows s' := by
  induction h with
  | nil s => exact .refl s
  | cons first _ ih => exact first.grows.trans ih

/-- The states of the pieces are those that were added, each of them a state of some piece. -/
theorem exists_mem_states (h : Pieces useful s s' pieces) (v : Nat) :
    (∃ e ∈ pieces, v ∈ e.1.states) ↔ s.graph.size ≤ v ∧ v < s'.graph.size := by
  induction h with
  | nil s =>
    refine iff_of_false ?_ (by omega)
    rintro ⟨e, he, _⟩
    nomatch he
  | cons first rest ih =>
    have hle := first.grows.size_le
    have hle' := rest.grows.size_le
    rw [List.exists_mem_cons_iff, ih, first.mem_states]
    omega

/-- Each piece still recognizes what it was built for when all of them are there. -/
theorem recognizes (h : Pieces useful s s' pieces) (hgrows : s'.Grows s'') :
    ∀ e ∈ pieces, e.1.Recognizes useful s''.graph e.2 := by
  induction h with
  | nil => exact fun e he => absurd he List.not_mem_nil
  | cons first rest ih =>
    intro e he
    rcases List.mem_cons.1 he with rfl | he
    · exact first.later (rest.grows.trans hgrows)
    · exact ih hgrows e he

/-- No two pieces have a state in common. -/
theorem pairwise_not_mem (h : Pieces useful s s' pieces) :
    pieces.Pairwise fun d e => ∀ v ∈ d.1.states, v ∉ e.1.states := by
  induction h with
  | nil => exact .nil
  | cons first rest ih =>
    refine List.pairwise_cons.2 ⟨fun e he v hv hv' => ?_, ih⟩
    have hlt := ((first.mem_states v).1 hv).2
    have hle := ((rest.exists_mem_states v).1 ⟨e, he, hv'⟩).1
    exact Nat.not_lt.2 hle hlt

end Pieces

/-- One more option for an automaton with a given start state. -/
def offerFrom (start : Vertex) (a f : Automaton) : Builder Automaton :=
  edit a fun m => (m.join f).connect ⟨start, .epsilon, f.start⟩

/-- A choice that is being made: it accepts the words of the options that were offered, and
the pieces, which are apart from it and from each other, are options to come. -/
structure Offering (useful : Prop) (a : Automaton) (s : Supply) (L : Language Label)
    (pieces : List (Automaton × Language Label)) : Prop where
  choosing : Machine.Choosing useful { graph := s.graph, automaton := a } L
  recognizes : ∀ e ∈ pieces, e.1.Recognizes useful s.graph e.2
  apart : ∀ e ∈ pieces, a.Apart s.graph e.1
  pairwise : pieces.Pairwise fun d e => d.1.Apart s.graph e.1

/-- What is left behind when some pieces have been offered: their states are taken over, and
no others are touched. -/
structure Offered (a : Automaton) (s : Supply) (pieces : List (Automaton × Language Label))
    (a' : Automaton) (s' : Supply) : Prop where
  start_eq : a'.start = a.start
  nextId_eq : s'.nextId = s.nextId
  size_eq : s'.graph.size = s.graph.size
  id_eq : ∀ v, (s'.graph.node v).id = (s.graph.node v).id
  node_eq : ∀ v, v ∉ a.states → (∀ e ∈ pieces, v ∉ e.1.states) →
    s'.graph.node v = s.graph.node v
  mem_states : ∀ v, v ∈ a'.states ↔ v ∈ a.states ∨ ∃ e ∈ pieces, v ∈ e.1.states

namespace Offered

variable {a a' a'' : Automaton} {s s' s'' : Supply} {e : Automaton × Language Label}
  {pieces : List (Automaton × Language Label)}

/-- Nothing has been offered, and nothing has changed. -/
theorem nil (a : Automaton) (s : Supply) : Offered a s [] a s where
  start_eq := rfl
  nextId_eq := rfl
  size_eq := rfl
  id_eq _ := rfl
  node_eq _ _ _ := rfl
  mem_states v := by
    refine (or_iff_left ?_).symm
    rintro ⟨e, he, _⟩
    exact List.not_mem_nil he

/-- Offering a piece and then some more is offering all of them. -/
theorem cons (hfirst : Offered a s [e] a' s') (hrest : Offered a' s' pieces a'' s'') :
    Offered a s (e :: pieces) a'' s'' where
  start_eq := hrest.start_eq.trans hfirst.start_eq
  nextId_eq := hrest.nextId_eq.trans hfirst.nextId_eq
  size_eq := hrest.size_eq.trans hfirst.size_eq
  id_eq v := (hrest.id_eq v).trans (hfirst.id_eq v)
  node_eq v hv hpieces := by
    have hone : ∀ d ∈ [e], v ∉ d.1.states := by
      intro d hd
      rw [List.mem_singleton.1 hd]
      exact hpieces e List.mem_cons_self
    -- a state that neither of the two steps touched
    have hnot : v ∉ a'.states := by
      rw [hfirst.mem_states]
      rintro (h | ⟨d, hd, h⟩)
      · exact hv h
      · exact hone d hd h
    rw [hrest.node_eq v hnot fun d hd => hpieces d (List.mem_cons_of_mem e hd),
      hfirst.node_eq v hv hone]
  mem_states v := by
    have hone : (∃ d ∈ [e], v ∈ d.1.states) ↔ v ∈ e.1.states := by
      simp only [List.mem_singleton, exists_eq_left]
    rw [hrest.mem_states, hfirst.mem_states, hone, List.exists_mem_cons_iff, or_assoc]

end Offered

/-- Offering the next piece leaves a choice that is still being made: the pieces to come do not see
what was done. This is the step of the induction over the pieces; what one offer does to an
automaton is known from `Machine.Choosing.offer`. -/
theorem Offering.step {a f : Automaton} {s : Supply} {L M : Language Label}
    {pieces : List (Automaton × Language Label)}
    (h : Offering useful a s L ((f, M) :: pieces)) :
    Offering useful (offerFrom a.start a f s).1 (offerFrom a.start a f s).2 (L + M) pieces ∧
      Offered a s [(f, M)] (offerFrom a.start a f s).1 (offerFrom a.start a f s).2 := by
  let m : Machine := { graph := s.graph, automaton := a }
  have hf := h.recognizes (f, M) List.mem_cons_self
  obtain ⟨hlater, hpairwise⟩ := List.pairwise_cons.1 h.pairwise
  have hstep : offerFrom a.start a f s =
      ((m.offer f).automaton, { s with graph := (m.offer f).graph }) := rfl
  have hautomaton := Machine.automaton_offer (m := m) h.choosing.sound hf.sound
  have hchoosing := Machine.Choosing.offer h.choosing hf (h.apart _ List.mem_cons_self)
  have hid : ∀ v, ((m.offer f).graph.node v).id = (s.graph.node v).id := Machine.id_offer
  have hsize : (m.offer f).graph.size = s.graph.size :=
    Machine.size_offer h.choosing.sound hf.sound
  have hnode : ∀ v, v ∉ a.states → v ∉ f.states →
      (m.offer f).graph.node v = s.graph.node v := fun v hv hvf =>
    Machine.node_offer_of_not_mem (m := m) h.choosing.sound hf.sound hv hvf
  have hmem : ∀ v, v ∈ (m.offer f).automaton.states ↔ v ∈ a.states ∨ v ∈ f.states := by
    intro v
    rw [hautomaton]
    exact OrdSet.mem_union
  have hstart : (m.offer f).automaton.start = a.start := by rw [hautomaton]
  rw [hstep]
  generalize m.offer f = made at *
  -- identifiers stay, so what was apart before is apart now
  have hapart : ∀ {b c : Automaton}, b.Apart s.graph c → b.Apart made.graph c := by
    rintro b c ⟨not_mem, id_ne⟩
    refine ⟨not_mem, fun v hv w hw => ?_⟩
    rw [hid, hid]
    exact id_ne v hv w hw
  -- the pieces to come recognize what they did, and they are apart from all that has been taken
  -- over
  refine ⟨⟨{ hchoosing with }, ?_, ?_, hpairwise.imp hapart⟩,
    ⟨hstart, rfl, hsize, hid, ?_, ?_⟩⟩
  · intro d hd
    have ha := h.apart d (List.mem_cons_of_mem _ hd)
    apply (h.recognizes d (List.mem_cons_of_mem _ hd)).congr ?_ (Nat.le_of_eq hsize.symm)
    intro v hv
    apply hnode v
    · exact fun hva => ha.not_mem v hva hv
    · exact fun hvf => (hlater d hd).not_mem v hvf hv
  · intro d hd
    have ha := h.apart d (List.mem_cons_of_mem _ hd)
    constructor
    · intro v hv
      rcases (hmem v).1 hv with hv | hv
      · exact ha.not_mem v hv
      · exact (hlater d hd).not_mem v hv
    · intro v hv
      rcases (hmem v).1 hv with hv | hv
      · exact (hapart ha).id_ne v hv
      · exact (hapart (hlater d hd)).id_ne v hv
  · exact fun v hv hone => hnode v hv (hone (f, M) List.mem_cons_self)
  · intro v
    rw [hmem]
    simp only [List.mem_singleton, exists_eq_left]

/-- Offering fragments one after the other offers the words of all of them, and takes over the
states of all of them. -/
theorem Offering.foldlM {a : Automaton} {s : Supply} {L : Language Label}
    {pieces : List (Automaton × Language Label)} (h : Offering useful a s L pieces)
    {start : Vertex} (hstart : a.start = start) {b : Builder Automaton}
    (hb : (pieces.map Prod.fst).foldlM (offerFrom start) a = b) :
    Machine.Choosing useful { graph := (b s).2.graph, automaton := (b s).1 }
        (L + (pieces.map Prod.snd).sum) ∧ Offered a s pieces (b s).1 (b s).2 := by
  rw [← hb]
  clear hb
  -- the pieces are offered from the left, so the induction is on those to come
  induction pieces generalizing a s L with
  | nil =>
    rw [List.map_nil, List.map_nil, List.sum_nil, add_zero]
    exact ⟨h.choosing, .nil a s⟩
  | cons e pieces ih =>
    obtain ⟨hnext, hoffered⟩ := h.step
    rw [hstart] at hnext hoffered
    obtain ⟨hchoosing, hrest⟩ := ih hnext (hoffered.start_eq.trans hstart)
    rw [List.map_cons, List.map_cons, List.sum_cons, ← add_assoc, List.foldlM_cons]
    exact ⟨hchoosing, hoffered.cons hrest⟩

/-- A word is in a sum of languages if it is in one of them. -/
theorem mem_sum {Ls : List (Language Label)} {word : List Label} :
    word ∈ Ls.sum ↔ ∃ L ∈ Ls, word ∈ L := by
  induction Ls with
  | nil =>
    rw [List.sum_nil]
    exact iff_of_false (Language.notMem_zero word) fun ⟨L, hL, _⟩ => nomatch hL
  | cons L Ls ih => rw [List.sum_cons, Language.mem_add, ih, List.exists_mem_cons_iff]

/-- A new start state offers nothing yet, and the pieces are apart from it. So the induction over
the pieces can begin. -/
theorem Pieces.offering {s s' : Supply} {pieces : List (Automaton × Language Label)}
    (hpieces : Pieces useful s s' pieces) :
    Offering useful { start := s'.graph.size, states := {s'.graph.size}, alphabet := ∅ }
      (newState true false s').2 0 pieces := by
  have hlone := fragment_newState false s'
  have hgrows : s.Grows (newState true false s').2 := hpieces.grows.trans hlone.grows
  have hbare := unconnected_newState true false s'
  have hsize := size_newState true false s'
  generalize (newState true false s').2 = drawn at *
  -- the pieces lie below the new start state, each in a range of its own
  have hrange : ∀ e ∈ pieces, ∀ v ∈ e.1.states, s.graph.size ≤ v ∧ v < s'.graph.size :=
    fun e he v hv => (hpieces.exists_mem_states v).1 ⟨e, he, hv⟩
  have hrange' : ∀ e ∈ pieces, ∀ v ∈ e.1.states, s.graph.size ≤ v ∧ v < drawn.graph.size :=
    fun e he v hv => ⟨(hrange e he v hv).1, Nat.lt_of_lt_of_le (hrange e he v hv).2
      hlone.grows.size_le⟩
  refine ⟨⟨hlone.sound, rfl, ?_, hlone.language_eq, ?_, ?_⟩, hpieces.recognizes hlone.grows,
    ?_, ?_⟩
  · intro v hv l hl
    rw [show v = s'.graph.size from OrdSet.mem_singleton.1 hv,
      show drawn.graph.destinations s'.graph.size l = ∅ from hbare.destinations_eq l] at hl
    exact OrdSet.not_mem_empty _ hl
  · intro _ v hv hne
    exact absurd (OrdSet.mem_singleton.1 hv) hne
  · intro _ l hl
    exact absurd hl (OrdSet.not_mem_empty l)
  · intro e he
    apply hgrows.apart ?_ (hrange' e he) ?_
    · intro v hv
      rw [OrdSet.mem_singleton.1 hv, hsize]
      exact ⟨hpieces.grows.size_le, Nat.lt_succ_self _⟩
    · intro v hv hve
      rw [OrdSet.mem_singleton.1 hv] at hve
      exact Nat.lt_irrefl _ (hrange e he _ hve).2
  · exact hpieces.pairwise_not_mem.imp_of_mem fun hd he h =>
      hgrows.apart (hrange' _ hd) (hrange' _ he) h

/-- A choice between fragments accepts the words of any of them. If every state is to be useful,
there must be an option: a start state that offers nothing leads to no acceptance. -/
theorem fragment_choice {s s' : Supply} {pieces : List (Automaton × Language Label)}
    (hpieces : Pieces useful s s' pieces) (hsome : useful → pieces ≠ []) :
    Fragment useful (pieces.map Prod.snd).sum s (choice (pieces.map Prod.fst) s').2
      (choice (pieces.map Prod.fst) s').1 := by
  have hlone := fragment_newState false s'
  have hgrows : s.Grows (newState true false s').2 := hpieces.grows.trans hlone.grows
  have hchoice : choice (pieces.map Prod.fst) s' = (pieces.map Prod.fst).foldlM
      (offerFrom s'.graph.size)
      { start := s'.graph.size, states := {s'.graph.size}, alphabet := ∅ }
      (newState true false s').2 := rfl
  have hsize := size_newState true false s'
  obtain ⟨hchoosing, hoffered⟩ := hpieces.offering.foldlM rfl rfl
  generalize (newState true false s').2 = drawn at *
  rw [hchoice]
  generalize ((pieces.map Prod.fst).foldlM (m := Builder) (offerFrom s'.graph.size)
    { start := s'.graph.size, states := {s'.graph.size}, alphabet := ∅ }) drawn = made at *
  rw [zero_add] at hchoosing
  refine ⟨hchoosing.recognizes ?_, ?_, ?_⟩
  · intro hu
    obtain ⟨e, he⟩ := List.exists_mem_of_ne_nil pieces (hsome hu)
    obtain ⟨word, hword⟩ := (hpieces.recognizes hlone.grows e he).exists_word hu
    exact ⟨word, mem_sum.2 ⟨e.2, List.mem_map_of_mem he, hword⟩⟩
  · have hedit := hgrows.edit hoffered.size_eq hoffered.id_eq fun v hv => hoffered.node_eq v ?_ ?_
    · rw [show made.2 = { drawn with graph := made.2.graph } by rw [← hoffered.nextId_eq]]
      exact hedit
    -- neither the new start state nor the pieces lie among the older states
    · intro h
      rw [OrdSet.mem_singleton.1 h] at hv
      exact Nat.not_lt.2 hpieces.grows.size_le hv
    · intro e he h
      exact Nat.not_lt.2 ((hpieces.exists_mem_states v).1 ⟨e, he, h⟩).1 hv
  · intro v
    -- the states are those of the pieces, and after them the new start state
    have hle := hpieces.grows.size_le
    rw [hoffered.mem_states, hoffered.size_eq, hsize, hpieces.exists_mem_states]
    show v ∈ ({s'.graph.size} : VertexSet) ∨ _ ↔ _
    rw [OrdSet.mem_singleton]
    show v = s'.graph.size ∨ _ ↔ _
    omega

/-- A choice between two constructions builds the words of both. They are built one after the other
and make up two pieces. -/
theorem builds_either {left right : Builder Automaton} {L M : Language Label}
    (hleft : Builds useful left L) (hright : Builds useful right M) :
    Builds useful (either left right) (L + M) := by
  intro s
  have hpieces := Pieces.cons (hleft s) (.cons (hright (left s).2) (.nil _))
  have hchoice := fragment_choice hpieces fun _ => List.cons_ne_nil _ _
  rw [List.map_cons, List.map_cons, List.map_nil, List.sum_cons, List.sum_cons, List.sum_nil,
    add_zero] at hchoice
  exact hchoice

/-! ## Any number of times -/

/-- A fragment that loops is a fragment for one round or more: no state is drawn for it, and edges
are added between states of its own. -/
theorem fragment_loop {L : Language Label} {s s' : Supply} {a : Automaton}
    (ha : Fragment useful L s s' a) :
    Fragment useful (L * L∗) s
      { s' with graph := (Machine.loop { graph := s'.graph, automaton := a }).graph }
      (Machine.loop { graph := s'.graph, automaton := a }).automaton := by
  let m : Machine := { graph := s'.graph, automaton := a }
  have hautomaton := Machine.automaton_loop (m := m) ha.sound
  have hsize := Machine.size_loop (m := m) ha.sound
  refine ⟨Machine.recognizes_rounds (m := m) ha.toRecognizes, ?_, ?_⟩
  · apply ha.grows.edit hsize
    · exact fun v => id_eq_of_shell_eq (Machine.shell_loop (m := m) v)
    · intro v hv
      apply Machine.node_loop_of_not_mem (m := m) ha.sound
      exact fun h => Nat.not_lt.2 ((ha.mem_states v).1 h).1 hv
  · intro v
    rw [hautomaton]
    show v ∈ a.states ↔ _ ∧ v < m.loop.graph.size
    rw [hsize]
    exact ha.mem_states v

/-- A loop whose start state accepts is a fragment for any number of rounds, if the fragment could
not come back to its start without accepting there. This is asked by the count at the start state,
which in a fragment is the number of edges that lead back to it. -/
theorem fragment_flagged {L : Language Label} {s s' : Supply} {a : Automaton}
    (ha : Fragment useful L s s' a) (hback : (s'.graph.node a.start).isAccepting = true ∨
      (s'.graph.node a.start).indegree ≤ 0) :
    Fragment useful L∗ s
      { s' with graph := ((Machine.loop { graph := s'.graph, automaton := a }).flagAccepting
        a.start true).graph }
      (Machine.loop { graph := s'.graph, automaton := a }).automaton := by
  let m : Machine := { graph := s'.graph, automaton := a }
  have hloop := fragment_loop ha
  have hstart : a.start < m.loop.graph.size := by
    rw [show m.loop.graph.size = s'.graph.size from Machine.size_loop (m := m) ha.sound]
    exact ha.sound.placed _ ha.sound.start_mem
  have hsize := Machine.size_flagAccepting (m := m.loop) true hstart
  refine ⟨Machine.recognizes_loop (m := m) ha.toRecognizes hback, ?_, ?_⟩
  · apply hloop.grows.edit hsize
    · exact fun w => Machine.id_flagAccepting (m := m.loop) a.start w true
    · intro v hv
      refine (Machine.node_flagAccepting (m := m.loop) a.start v true).trans (if_neg ?_)
      -- the start state is not one of the older states
      rintro rfl
      exact Nat.not_lt.2 ((ha.mem_states _).1 ha.sound.start_mem).1 hv
  · intro v
    rw [hloop.mem_states]
    show _ ∧ v < m.loop.graph.size ↔ _ ∧ v < (m.loop.flagAccepting a.start true).graph.size
    rw [hsize]

/-- A fragment that starts in a new accepting state is a fragment for the empty word and the words
of the former one. One state is drawn, and an edge that reads nothing leads on from it. -/
theorem fragment_restart {L : Language Label} {s s' : Supply} {m : Machine} {nextId : Int}
    (ha : Fragment useful L s s' m.automaton) (hlater : m.automaton.Recognizes useful m.graph L)
    (hgrows : s.Grows ⟨m.graph, nextId⟩) (hfresh : m.Fresh s'.graph.size)
    (hacc : (m.graph.node s'.graph.size).isAccepting = true)
    (hsize : m.graph.size = s'.graph.size + 1) :
    Fragment useful (1 + L) s ⟨(m.restart s'.graph.size).graph, nextId⟩
      (m.restart s'.graph.size).automaton := by
  have hle := ha.grows.size_le
  have hstart := (ha.mem_states m.automaton.start).1 ha.sound.start_mem
  have hrecognizes := Machine.recognizes_restart hlater hfresh hacc
  have hautomaton := @Machine.automaton_restart m s'.graph.size ha.sound.start_mem
  have hsizes := Machine.size_restart (hlater.sound.placed _ hlater.sound.start_mem) hfresh.placed
  -- only the old and the new start state are touched
  have hnode : ∀ v < s.graph.size, (m.restart s'.graph.size).graph.node v = m.graph.node v := by
    intro v hv
    apply Machine.node_restart_of_ne
    · rintro rfl
      exact Nat.not_lt.2 hstart.1 hv
    · rintro rfl
      exact Nat.not_lt.2 hle hv
  have hid : ∀ v, ((m.restart s'.graph.size).graph.node v).id = (m.graph.node v).id :=
    Machine.id_restart
  -- the new start state is the last one that was drawn
  have hmem : ∀ v : Nat, v ∈ (m.restart s'.graph.size).automaton.states ↔
      v = s'.graph.size ∨ s.graph.size ≤ v ∧ v < s'.graph.size := by
    intro v
    rw [hautomaton, OrdSet.mem_insert, ha.mem_states]
  generalize m.restart s'.graph.size = made at *
  refine ⟨hrecognizes, hgrows.edit hsizes hid hnode, ?_⟩
  intro v
  show v ∈ made.automaton.states ↔ s.graph.size ≤ v ∧ v < made.graph.size
  rw [hsizes, hsize, hmem]
  omega

/-- A repetition loops, and then starts in a new state if the start can be come back to without
accepting there. Said as one equation, in which the two cases can be looked at one by one. -/
theorem star_eq {body : Builder Automaton} {s s' : Supply} {a : Automaton}
    (hb : body s = (a, s')) {m : Machine} (hm : m = { graph := s'.graph, automaton := a }) :
    star body s =
      if (s'.graph.node a.start).indegree > 0 ∧ !(s'.graph.node a.start).isAccepting then
        edit m.loop.automaton
          (fun k => (k.connect ⟨m.loop.graph.size, .epsilon, a.start⟩).shiftStart
            a.start m.loop.graph.size)
          (newState false true { s' with graph := m.loop.graph }).2
      else
        edit m.loop.automaton (·.flagAccepting a.start true)
          { s' with graph := m.loop.graph } := by
  rw [hm]
  simp only [star, edit, bind, StateT.bind, hb, get, getThe, MonadStateOf.get, StateT.get, pure]
  split <;> rfl

/-- Any number of repetitions build any number of rounds. The loop alone builds one round or more,
and there are two ways of adding no round at all. -/
theorem builds_star {body : Builder Automaton} {L : Language Label}
    (hbody : Builds useful body L) : Builds useful (star body) L∗ := by
  intro s
  have ha := hbody s
  generalize hb : body s = built at ha
  obtain ⟨a, s'⟩ := built
  dsimp only at ha
  let m : Machine := { graph := s'.graph, automaton := a }
  have hautomaton : m.loop.automaton = a := Machine.automaton_loop (m := m) ha.sound
  have hloop := fragment_loop ha
  rw [star_eq (m := m) hb rfl]
  by_cases hback : (s'.graph.node a.start).indegree > 0 ∧ !(s'.graph.node a.start).isAccepting
  · -- the start can be come back to without accepting, so a new one is put before it
    rw [if_pos hback]
    rw [hautomaton] at hloop ⊢
    have hlater := hloop.later (grows_newState false true { s' with graph := m.loop.graph })
    have hgrows := hloop.grows.trans (grows_newState false true { s' with graph := m.loop.graph })
    have hfresh := fresh_newState hloop true
    have hacc := node_newState false true { s' with graph := m.loop.graph }
    have hsize := size_newState false true { s' with graph := m.loop.graph }
    generalize (newState false true { s' with graph := m.loop.graph }).2 = drawn at *
    have hrestart := fragment_restart (m := { graph := drawn.graph, automaton := a }) hloop hlater
      hgrows hfresh (congrArg Node.isAccepting hacc) hsize
    rw [Language.one_add_self_mul_kstar_eq_kstar] at hrestart
    exact hrestart
  · -- here the start accepts already, or no edge leads back to it
    have hstart : (s'.graph.node a.start).isAccepting = true ∨
        (s'.graph.node a.start).indegree ≤ 0 := by
      by_cases hacc : (s'.graph.node a.start).isAccepting = true
      · exact Or.inl hacc
      · refine Or.inr (Int.not_lt.1 fun hpos => hback ⟨hpos, ?_⟩)
        simpa using hacc
    rw [if_neg hback]
    exact fragment_flagged ha hstart

/-! ## Within a range -/

/-- A property of constructions and the words that they build is handed on when constructions are
put together in sequence, as a choice between two, or any number of times. -/
structure HandedOn (P : Builder Automaton → Language Label → Prop) : Prop where
  nothing : P nothing 1
  sequence : ∀ {parts : List (Builder Automaton × Language Label)}, (∀ e ∈ parts, P e.1 e.2) →
    P (sequence (parts.map Prod.fst)) (parts.map Prod.snd).prod
  either : ∀ {left right : Builder Automaton} {L M : Language Label}, P left L → P right M →
    P (either left right) (L + M)
  star : ∀ {body : Builder Automaton} {L : Language Label}, P body L → P (star body) L∗

/-- Building a language is handed on in all the ways in which constructions are put together. -/
theorem handedOn_builds : HandedOn (Builds useful) where
  nothing := builds_nothing
  sequence := builds_sequence
  either := builds_either
  star := builds_star

/-- What stands for the copies beyond the required ones, with the words that it builds. -/
def furtherParts (b : Bounds) (body : Builder Automaton) (L : Language Label) :
    List (Builder Automaton × Language Label) :=
  match b.hi with
  | none => [(star body, L∗)]
  | some hi =>
    if b.lo < hi then
      [(eitherOf nothing (((List.range' 1 (hi - b.lo)).map fun n =>
          (sequence (List.replicate n body), L ^ n)).map Prod.fst),
        1 + (((List.range' 1 (hi - b.lo)).map fun n =>
          (sequence (List.replicate n body), L ^ n)).map Prod.snd).sum)]
    else []

/-- The further copies are as many as the range has left: any number, or one of the numbers that are
offered, or none because there is no part for them. -/
theorem mem_prod_furtherParts (b : Bounds) (body : Builder Automaton) (L : Language Label)
    (word : List Label) : word ∈ ((furtherParts b body L).map Prod.snd).prod ↔
      ∃ n, (∀ hi ∈ b.hi, n ≤ hi - b.lo) ∧ word ∈ L ^ n := by
  rw [furtherParts]
  cases hb : b.hi with
  | none =>
    dsimp only
    rw [List.map_cons, List.map_nil, List.prod_singleton, Language.kstar_eq_iSup_pow,
      Language.mem_iSup]
    exact exists_congr fun n => (and_iff_right nofun).symm
  | some hi =>
    dsimp only
    simp only [Option.mem_some_iff, forall_eq']
    split
    · rw [List.map_cons, List.map_nil, List.prod_singleton, Language.mem_add, Language.mem_one,
        mem_sum]
      constructor
      · rintro (rfl | ⟨M, hM, hword⟩)
        · exact ⟨0, Nat.zero_le _, by rw [pow_zero]; exact Language.nil_mem_one⟩
        · obtain ⟨e, he, rfl⟩ := List.mem_map.1 hM
          obtain ⟨n, hn, rfl⟩ := List.mem_map.1 he
          -- any positive number up to what the range has left is one of the options
          have hrange := List.mem_range'_1.1 hn
          exact ⟨n, by omega, hword⟩
      · rintro ⟨n, hn, hword⟩
        by_cases hzero : n = 0
        · rw [hzero, pow_zero, Language.mem_one] at hword
          exact Or.inl hword
        · refine Or.inr ⟨L ^ n, List.mem_map.2 ⟨(sequence (List.replicate n body), L ^ n), ?_, rfl⟩,
            hword⟩
          exact List.mem_map.2 ⟨n, List.mem_range'_1.2 (by omega), rfl⟩
    · rw [List.map_nil, List.prod_nil, Language.mem_one]
      constructor
      · rintro rfl
        exact ⟨0, Nat.zero_le _, by rw [pow_zero]; exact Language.nil_mem_one⟩
      · rintro ⟨n, hn, hword⟩
        have hzero : n = 0 := by omega
        rw [hzero, pow_zero, Language.mem_one] at hword
        exact hword

/-- Required and further copies of a construction, in the order in which they are put. Beside each
of them stands the language that it builds, so that the product over these is a statement about
words. -/
theorem map_fst_copies (b : Bounds) (body : Builder Automaton) (L : Language Label) :
    (List.replicate b.lo (body, L) ++ furtherParts b body L).map Prod.fst =
      List.replicate b.lo body ++
        match b.hi with
        | none => [star body]
        | some hi =>
          if b.lo < hi then
            [eitherOf nothing ((List.range' 1 (hi - b.lo)).map fun n =>
              sequence (List.replicate n body))]
          else [] := by
  rw [List.map_append, List.map_replicate, furtherParts]
  congr 1
  cases b.hi with
  | none => rfl
  | some hi =>
    dsimp only
    split
    · rw [List.map_cons, List.map_nil, List.map_map]
      rfl
    · rfl

/-- An allowed number of words is the required number and as many more as the range has left. So the
language of a repetition is the product that its construction builds. -/
theorem powers_eq_prod (b : Bounds) (body : Builder Automaton) (L : Language Label) :
    b.powers L =
      ((List.replicate b.lo (body, L) ++ furtherParts b body L).map Prod.snd).prod := by
  ext word
  rw [List.map_append, List.map_replicate, List.prod_append, List.prod_replicate,
    Tree.mem_pow_mul_iff (mem_prod_furtherParts b body L), Bounds.mem_powers]
  constructor
  · rintro ⟨n, ⟨hlo, hhi⟩, hword⟩
    -- the required words are taken from the front
    refine ⟨n - b.lo, ?_, by rwa [Nat.add_sub_cancel' hlo]⟩
    intro hi hmem
    have hle := hhi hi hmem
    omega
  · rintro ⟨n, hn, hword⟩
    refine ⟨b.lo + n, ⟨by omega, ?_⟩, hword⟩
    intro hi hmem
    have hle := hn hi hmem
    have hbound := b.lo_le_hi hi hmem
    omega

/-- Without bounds any number of words is allowed. -/
theorem powers_of_isStar {b : Bounds} (hstar : b.isStar = true) (L : Language Label) :
    b.powers L = L∗ := by
  have hbounds : b.lo = 0 ∧ b.hi = none := of_decide_eq_true hstar
  ext word
  rw [Bounds.mem_powers, Language.kstar_eq_iSup_pow, Language.mem_iSup]
  refine exists_congr fun n => and_iff_right ?_
  rw [Bounds.mem_iff, hbounds.1, hbounds.2]
  exact ⟨Nat.zero_le n, fun hi hmem => absurd hmem (Option.not_mem_none hi)⟩

namespace HandedOn

variable {P : Builder Automaton → Language Label → Prop} {body : Builder Automaton}
  {L : Language Label}

/-- A chain of choices has the property if all its options have it. -/
theorem eitherOf (hP : HandedOn P) {first : Builder Automaton × Language Label}
    {others : List (Builder Automaton × Language Label)} (hfirst : P first.1 first.2)
    (hothers : ∀ e ∈ others, P e.1 e.2) :
    P (eitherOf first.1 (others.map Prod.fst)) (first.2 + (others.map Prod.snd).sum) := by
  induction others generalizing first with
  | nil =>
    rw [List.map_nil, List.map_nil, List.sum_nil, add_zero]
    exact hfirst
  | cons e others ih =>
    rw [List.map_cons, List.map_cons, List.sum_cons]
    exact hP.either hfirst
      (ih (hothers e List.mem_cons_self) fun e' he' => hothers e' (List.mem_cons_of_mem e he'))

/-- Copies of a construction in sequence build a power, each copy being built anew. -/
theorem replicate (hP : HandedOn P) (hbody : P body L) (n : Nat) :
    P (Builder.sequence (List.replicate n body)) (L ^ n) := by
  have hcopies : ∀ e ∈ List.replicate n (body, L), P e.1 e.2 := by
    intro e he
    rw [(List.mem_replicate.1 he).2]
    exact hbody
  have hsequence := hP.sequence hcopies
  rw [List.map_replicate, List.map_replicate, List.prod_replicate] at hsequence
  exact hsequence

/-- All that stands for further copies has the property: the repetition, the choice, and in it every
number of copies. -/
theorem furtherParts (hP : HandedOn P) (b : Bounds) (hbody : P body L) :
    ∀ e ∈ furtherParts b body L, P e.1 e.2 := by
  intro e he
  rw [Builder.furtherParts] at he
  split at he
  · rw [List.mem_singleton.1 he]
    exact hP.star hbody
  · split at he
    · rw [List.mem_singleton.1 he]
      refine @eitherOf P hP (Builder.nothing, 1) _ hP.nothing ?_
      intro e' he'
      obtain ⟨n, _, rfl⟩ := List.mem_map.1 he'
      exact hP.replicate hbody n
    · nomatch he

/-- A repetition builds the words put together from an allowed number of words. A repetition without
bounds is built as a loop, any other as the parts that it unfolds to. -/
theorem repetition (hP : HandedOn P) (b : Bounds) (hbody : P body L) :
    P (repetition b body) (b.powers L) := by
  rw [Builder.repetition]
  by_cases hstar : b.isStar = true
  · rw [if_pos hstar, powers_of_isStar hstar]
    exact hP.star hbody
  · have hall : ∀ e ∈ List.replicate b.lo (body, L) ++ Builder.furtherParts b body L,
        P e.1 e.2 := by
      intro e he
      rcases List.mem_append.1 he with he | he
      · rw [(List.mem_replicate.1 he).2]
        exact hbody
      · exact hP.furtherParts b hbody e he
    have hsequence := hP.sequence hall
    rw [map_fst_copies, ← powers_eq_prod] at hsequence
    rw [if_neg hstar]
    exact hsequence

end HandedOn

end Builder

/-! ## Trees -/

namespace Tree

mutual

/-- No choice in a tree is without options. -/
def Feasible : Tree → Prop
  | char .. => True
  | concat parts _ => AllFeasible parts
  | group inner _ => Feasible inner
  | either l r _ => Feasible l ∧ Feasible r
  | anyOf options .. => options ≠ [] ∧ AllFeasible options
  | repeated _ body .. => Feasible body

/-- No choice in any of some trees is without options. -/
def AllFeasible : List Tree → Prop
  | [] => True
  | t :: ts => Feasible t ∧ AllFeasible ts

end

/-- A tree as it is built, with the words that it describes. -/
def part (t : Tree) : Builder Automaton × Language Label := (build t, language t)

/-- Trees in a row are built as their constructions, each standing beside its language. -/
theorem buildAll_eq (ts : List Tree) : buildAll ts = (ts.map part).map Prod.fst := by
  induction ts with
  | nil => rfl
  | cons t ts ih =>
    rw [buildAll, ih]
    rfl

/-- What trees in a row describe is the product of what they describe. -/
theorem languageOfSequence_eq (ts : List Tree) :
    languageOfSequence ts = ((ts.map part).map Prod.snd).prod := by
  induction ts with
  | nil => rfl
  | cons t ts ih =>
    rw [languageOfSequence, ih]
    rfl

/-- What options describe is the sum of what they describe. -/
theorem languageOfChoice_eq (ts : List Tree) :
    languageOfChoice ts = (ts.map language).sum := by
  induction ts with
  | nil => rfl
  | cons t ts ih =>
    rw [languageOfChoice, ih]
    rfl

/-- Fragments built one after the other are pieces, with the languages of their trees. -/
theorem pieces_buildEach {useful : Prop} {ts : List Tree}
    (hts : ∀ e ∈ ts.map part, Builder.Builds useful e.1 e.2) (s : Supply) :
    ∃ pieces, Builder.Pieces useful s (buildEach ts s).2 pieces ∧
      pieces.map Prod.fst = (buildEach ts s).1 ∧ pieces.map Prod.snd = ts.map language := by
  induction ts generalizing s with
  | nil => exact ⟨[], .nil s, rfl, rfl⟩
  | cons t ts ih =>
    have hfirst := hts (part t) List.mem_cons_self s
    obtain ⟨pieces, hpieces, hfst, hsnd⟩ :=
      ih (fun e he => hts e (List.mem_cons_of_mem _ he)) (build t s).2
    refine ⟨((build t s).1, language t) :: pieces, .cons hfirst hpieces, ?_, ?_⟩
    · rw [List.map_cons, hfst]
      rfl
    · rw [List.map_cons, hsnd, List.map_cons]

section Induction

variable {useful : Prop} {P : Builder Automaton → Language Label → Prop}

mutual

/-- A property that is handed on, and that symbols and choices between any number of options have,
holds of every tree as it is built. There is one case for each kind of tree; the condition that no
choice is without options is handed down with it, but only where it is asked for. -/
theorem build_induction (hP : Builder.HandedOn P) (letter : ∀ l, P (.letter l) {l.word})
    (choice : ∀ ts : List Tree, (∀ e ∈ ts.map part, P e.1 e.2) → (useful → ts ≠ []) →
      P (do .choice (← buildEach ts)) (languageOfChoice ts))
    (t : Tree) (h : useful → t.Feasible) : P t.build t.language := by
  match t with
  -- the empty word and a symbol are built in the same way
  | char .epsilon _ =>
    rw [build, language]
    exact letter .epsilon
  | char (.symbol s) _ =>
    rw [build, language]
    exact letter (.symbol s)
  | concat parts _ =>
    rw [build, language, buildAll_eq, languageOfSequence_eq]
    exact hP.sequence (build_induction_all hP letter choice parts fun hu => by
      simpa only [Feasible] using h hu)
  | group inner _ =>
    rw [build, language]
    exact build_induction hP letter choice inner fun hu => by simpa only [Feasible] using h hu
  | either l r _ =>
    rw [build, language]
    exact hP.either
      (build_induction hP letter choice l fun hu =>
        (by simpa only [Feasible] using h hu : _ ∧ _).1)
      (build_induction hP letter choice r fun hu =>
        (by simpa only [Feasible] using h hu : _ ∧ _).2)
  | anyOf options _ _ =>
    rw [build, language]
    exact choice options
      (build_induction_all hP letter choice options fun hu =>
        (by simpa only [Feasible] using h hu : _ ∧ _).2)
      fun hu => (by simpa only [Feasible] using h hu : options ≠ [] ∧ _).1
  | repeated b body _ _ =>
    rw [build, language]
    exact hP.repetition b (build_induction hP letter choice body fun hu => by
      simpa only [Feasible] using h hu)

/-- The same for every tree of a list. -/
theorem build_induction_all (hP : Builder.HandedOn P) (letter : ∀ l, P (.letter l) {l.word})
    (choice : ∀ ts : List Tree, (∀ e ∈ ts.map part, P e.1 e.2) → (useful → ts ≠ []) →
      P (do .choice (← buildEach ts)) (languageOfChoice ts))
    (ts : List Tree) (h : useful → AllFeasible ts) : ∀ e ∈ ts.map part, P e.1 e.2 := by
  match ts with
  | [] => exact fun e he => absurd he List.not_mem_nil
  | t :: ts =>
    intro e he
    rcases List.mem_cons.1 he with rfl | he
    · exact build_induction hP letter choice t fun hu =>
        (by simpa only [AllFeasible] using h hu : _ ∧ _).1
    · exact build_induction_all hP letter choice ts
        (fun hu => (by simpa only [AllFeasible] using h hu : _ ∧ _).2) e he

end

end Induction

/-- Options that are built one behind the other, and then offered, are a choice. -/
theorem builds_choice {useful : Prop} (ts : List Tree)
    (hts : ∀ e ∈ ts.map part, Builder.Builds useful e.1 e.2) (hsome : useful → ts ≠ []) :
    Builder.Builds useful (do .choice (← buildEach ts)) (languageOfChoice ts) := by
  intro s
  obtain ⟨pieces, hpieces, hfst, hsnd⟩ := pieces_buildEach hts s
  have hchoice := Builder.fragment_choice hpieces fun hu hnil => by
    rw [hnil, List.map_nil] at hsnd
    exact hsome hu (List.map_eq_nil_iff.1 hsnd.symm)
  rw [hfst, hsnd, ← languageOfChoice_eq] at hchoice
  exact hchoice

/-- Every tree is built as a fragment with the words that it describes. If every choice in it has
options, then each of its states leads to acceptance. -/
theorem builds {useful : Prop} (t : Tree) (h : useful → t.Feasible) :
    Builder.Builds useful t.build t.language :=
  t.build_induction Builder.handedOn_builds Builder.builds_letter builds_choice h

end Tree

end PatternAutomata
