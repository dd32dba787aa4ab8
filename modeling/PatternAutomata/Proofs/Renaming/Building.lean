/-
Building goes alike from supplies that mirror each other.

A construction draws its states from a supply one after the other, so the same construction
draws states at corresponding places from two supplies with corresponding free places and the
same next identifier (`Builder.Alike`). The names of places are the same throughout, so a
fragment that was built earlier stays mirrored while others are built beside it.

The main statement is about whole trees: built beside whatever a graph holds, the automaton of
a tree mirrors the one that is built in an empty graph (`Tree.mirrors_automaton`).
-/
import PatternAutomata.Fragment
import PatternAutomata.Proofs.Renaming.Edits

set_option autoImplicit false

namespace PatternAutomata

variable {ρ : Vertex → Vertex}

/-! ## Constructions

A construction is followed in two supplies at once. Its results correspond by whatever relation its
parts ask for: names of places for single states, mirrored automata for fragments. -/

/-- The supplies draw states at corresponding places and with the same identifiers. -/
structure Supply.Mirrors (ρ : Vertex → Vertex) (s s' : Supply) : Prop where
  graph : s.graph.Mirrors True ρ s'.graph
  nextId_eq : s'.nextId = s.nextId

namespace Builder

variable {α β : Type} {R : α → α → Prop} {Q : β → β → Prop}

/-- From supplies that mirror each other the constructions lead to such supplies again, and to
results that correspond. -/
def Alike (ρ : Vertex → Vertex) (R : α → α → Prop) (x y : Builder α) : Prop :=
  ∀ s s' : Supply, s.Mirrors ρ s' → R (x s).1 (y s').1 ∧ (x s).2.Mirrors ρ (y s').2

/-- Constructions that follow one another go alike if each of them does on corresponding results. -/
theorem Alike.bind {x y : Builder α} (hxy : Alike ρ R x y) {f k : α → Builder β}
    (hfk : ∀ a b, R a b → Alike ρ Q (f a) (k b)) : Alike ρ Q (x >>= f) (y >>= k) := by
  intro s s' hs
  obtain ⟨hr, hs⟩ := hxy s s' hs
  exact hfk _ _ hr _ _ hs

/-- What is returned without drawing leaves the supplies as they are. -/
theorem alike_pure {a b : α} (hab : R a b) : Alike ρ R (pure a) (pure b) :=
  fun _ _ hs => ⟨hab, hs⟩

/-- Looking at the supply gives the supplies themselves, which mirror each other. -/
theorem alike_get : Alike ρ (Supply.Mirrors ρ) get get := fun _ _ hs => ⟨hs, hs⟩

/-- Constructions that are carried on along two lists of corresponding items. By induction on the
lists. -/
theorem alike_foldlM {as bs : List β} (hlist : List.Forall₂ Q as bs)
    {f k : α → β → Builder α} (hfk : ∀ a b c d, R a b → Q c d → Alike ρ R (f a c) (k b d))
    {a b : α} (hab : R a b) : Alike ρ R (as.foldlM f a) (bs.foldlM k b) := by
  induction hlist generalizing a b with
  | nil => exact alike_pure hab
  | cons hcd _ ih =>
    rw [List.foldlM_cons, List.foldlM_cons]
    exact (hfk _ _ _ _ hab hcd).bind fun _ _ => ih

/-! ## Fragments

One statement for each way of putting fragments together, which only says that its parts may be
built alike. -/

/-- The construction leads to corresponding automata. -/
abbrev Steady (ρ : Vertex → Vertex) (x : Builder Automaton) : Prop :=
  Alike ρ (Automaton.Mirrors True ρ) x x

/-- The first free place of the second supply is the name of the first free place of the first one,
so the states that are drawn correspond. -/
theorem alike_newState (start accepting : Bool) :
    Alike ρ (fun v w => w = ρ v) (newState start accepting) (newState start accepting) := by
  intro s s' hs
  have hbare : ∀ w ∈ (∅ : VertexSet), w < s.graph.size :=
    fun w hw => absurd hw (OrdSet.not_mem_empty w)
  refine ⟨hs.graph.size_eq.symm, ?_, congrArg (· + 1) hs.nextId_eq⟩
  have hadded := hs.graph.add (n := { id := s.nextId, isStart := start, isAccepting := accepting })
    rfl rfl hbare
  rw [newState, newState, hs.nextId_eq]
  exact hadded

/-- An edit that goes alike in machines may be made on fragments. -/
theorem alike_edit {a b : Automaton} (hab : a.Mirrors True ρ b) {f k : Machine → Machine}
    (hfk : ∀ m m', m.Mirrors True ρ m' → (f m).Mirrors True ρ (k m')) :
    Alike ρ (Automaton.Mirrors True ρ) (edit a f) (edit b k) := by
  intro s s' hs
  have hedited := hfk { graph := s.graph, automaton := a } { graph := s'.graph, automaton := b }
    ⟨hs.graph, hab⟩
  exact ⟨hedited.automaton, hedited.graph, hs.nextId_eq⟩

/-- An automaton with a single state. -/
theorem mirrors_single (v : Vertex) : Automaton.Mirrors True ρ
    { start := v, states := {v}, alphabet := ∅ }
    { start := ρ v, states := {ρ v}, alphabet := ∅ } :=
  ⟨rfl, rfl, fun _ => rfl, rfl, rfl⟩

/-- What accepts just the empty word draws one state. -/
theorem steady_nothing : Steady ρ nothing := by
  apply (alike_newState true true).bind
  rintro v _ rfl
  exact alike_pure (mirrors_single v)

/-- A letter draws two states and connects them. -/
theorem steady_letter (l : Label) : Steady ρ (letter l) := by
  apply (alike_newState true false).bind
  rintro v _ rfl
  apply (alike_newState false true).bind
  rintro w _ rfl
  refine alike_edit ?_ fun m m' hm => hm.connect ⟨v, l, w⟩
  exact ⟨rfl, (OrdSet.image_ofList [v, w]).symm, fun _ => rfl, rfl, rfl⟩

/-- A sequence reads on in one part after the other. -/
theorem steady_sequence {bs : List (Builder Automaton)} (hbs : ∀ b ∈ bs, Steady ρ b) :
    Steady ρ (sequence bs) := by
  cases bs with
  | nil => exact steady_nothing
  | cons b bs =>
    have hrest : List.Forall₂ (fun x y => x = y ∧ Steady ρ x) bs bs :=
      List.forall₂_same.2 fun x hx => ⟨rfl, hbs x (List.mem_cons_of_mem b hx)⟩
    apply (hbs b List.mem_cons_self).bind
    intro first first' hfirst
    apply alike_foldlM hrest _ hfirst
    rintro a a' x _ ha ⟨rfl, hx⟩
    exact hx.bind fun c d hcd => alike_edit ha fun m m' hm => hm.append hcd

/-- A choice draws its start state after the options were built, and leads from there to each of
them in order. -/
theorem alike_choice {as bs : List Automaton}
    (hlist : List.Forall₂ (Automaton.Mirrors True ρ) as bs) :
    Alike ρ (Automaton.Mirrors True ρ) (choice as) (choice bs) := by
  apply (alike_newState true false).bind
  rintro v _ rfl
  apply alike_foldlM hlist _ (mirrors_single v)
  intro a b c d hab hcd
  refine alike_edit hab fun m m' hm => ?_
  have hoffered := ((hm.takeOver hcd).flagStart c.start false).connect ⟨v, .epsilon, c.start⟩
  rw [hcd.start_eq]
  exact hoffered

/-- Two options are a choice between them. -/
theorem steady_either {left right : Builder Automaton} (hleft : Steady ρ left)
    (hright : Steady ρ right) : Steady ρ (either left right) := by
  apply hleft.bind
  intro a b hab
  apply hright.bind
  intro c d hcd
  exact alike_choice (.cons hab (.cons hcd .nil))

/-- A chain of choices is followed choice by choice, by induction on the list. -/
theorem steady_eitherOf {b : Builder Automaton} {bs : List (Builder Automaton)}
    (hb : Steady ρ b) (hbs : ∀ c ∈ bs, Steady ρ c) : Steady ρ (eitherOf b bs) := by
  induction bs generalizing b with
  | nil => exact hb
  | cons c cs ih =>
    have hrest := ih (hbs c List.mem_cons_self) fun d hd => hbs d (List.mem_cons_of_mem c hd)
    exact steady_either hb hrest

/-- Edges without a label from some states to one state. -/
theorem map_rename_toward (vs : List Vertex) (w : Vertex) :
    (vs.map fun v => (⟨v, .epsilon, w⟩ : Edge)).map (Edge.rename ρ) =
      (vs.map ρ).map fun v => ⟨v, .epsilon, ρ w⟩ := by
  rw [List.map_map, List.map_map]
  rfl

/-- Any number of rounds. Both bodies need a new start state or neither does, because this depends
on the edges that are counted at the start state and on whether it accepts. -/
theorem steady_star {body : Builder Automaton} (hbody : Steady ρ body) :
    Steady ρ (star body) := by
  apply hbody.bind
  intro a b hab
  apply alike_get.bind
  intro s s' hs
  have hm : Machine.Mirrors True ρ { graph := s.graph, automaton := a }
      { graph := s'.graph, automaton := b } := ⟨hs.graph, hab⟩
  have hfinals : s'.graph.inOrder (b.accepting s'.graph) =
      (s.graph.inOrder (a.accepting s.graph)).map ρ := hm.finals_eq
  simp only [hab.start_eq, hs.graph.indegree_eq, hs.graph.isAccepting_eq, hfinals,
    ← map_rename_toward]
  apply (alike_edit hab fun m m' hm => hm.connectAll _).bind
  intro c d hcd
  -- whether a new start state is needed depends on the old one only
  split
  · apply (alike_newState false true).bind
    rintro v _ rfl
    exact alike_edit hcd fun m m' hm => (hm.connect ⟨v, .epsilon, a.start⟩).shiftStart a.start v
  · exact alike_edit hcd fun m m' hm => hm.flagAccepting a.start true

/-- Bounded repetition goes alike, for it is put together of copies of the body, each of which is
built anew. The bounds alone decide how. -/
theorem steady_repetition (b : Bounds) {body : Builder Automaton} (hbody : Steady ρ body) :
    Steady ρ (repetition b body) := by
  have hcopies : ∀ n, ∀ c ∈ List.replicate n body, Steady ρ c := by
    intro n c hc
    rw [(List.mem_replicate.1 hc).2]
    exact hbody
  rw [repetition]
  split
  · exact steady_star hbody
  · apply steady_sequence
    intro c hc
    rcases List.mem_append.1 hc with hc | hc
    · exact hcopies b.lo c hc
    · -- further copies are any number of them, or one of several numbers
      cases hhi : b.hi with
      | none =>
        rw [hhi, List.mem_singleton] at hc
        rw [hc]
        exact steady_star hbody
      | some hi =>
        rw [hhi] at hc
        simp only at hc
        split at hc
        · rw [List.mem_singleton.1 hc]
          apply steady_eitherOf steady_nothing
          intro d hd
          obtain ⟨n, _, rfl⟩ := List.mem_map.1 hd
          exact steady_sequence (hcopies n)
        · cases hc

end Builder

/-! ## Trees -/

namespace Tree

open Builder

mutual

/-- Every tree is built alike. By induction on the tree, one case for each way of putting fragments
together. -/
theorem steady_build (t : Tree) : Steady ρ t.build := by
  match t with
  | char l _ =>
    rw [build]
    exact steady_letter l
  | concat parts _ =>
    rw [build]
    exact steady_sequence (steady_buildAll parts)
  | group inner _ =>
    rw [build]
    exact steady_build inner
  | either l r _ =>
    rw [build]
    exact steady_either (steady_build l) (steady_build r)
  | anyOf options _ _ =>
    rw [build]
    exact (alike_buildEach options).bind fun _ _ => alike_choice
  | repeated b body _ _ =>
    rw [build]
    exact steady_repetition b (steady_build body)

/-- So are the trees of a list. -/
theorem steady_buildAll (ts : List Tree) : ∀ b ∈ buildAll ts, Steady ρ b := by
  match ts with
  | [] =>
    rw [buildAll]
    exact fun b hb => absurd hb List.not_mem_nil
  | t :: ts =>
    rw [buildAll, List.forall_mem_cons]
    exact ⟨steady_build t, steady_buildAll ts⟩

/-- Options that are built one behind the other correspond one by one. -/
theorem alike_buildEach (ts : List Tree) :
    Alike ρ (List.Forall₂ (Automaton.Mirrors True ρ)) (buildEach ts) (buildEach ts) := by
  match ts with
  | [] =>
    rw [buildEach]
    exact alike_pure .nil
  | t :: ts =>
    rw [buildEach]
    apply (steady_build t).bind
    intro a b hab
    apply (alike_buildEach ts).bind
    intro as bs hlist
    exact alike_pure (.cons hab hlist)

end

/-- An empty graph is mirrored by any graph at its free places: there is nothing that could
differ. -/
theorem mirrors_empty (g : Graph) : (∅ : Graph).Mirrors True (g.size + ·) g where
  strictMono _ _ hvw := Nat.add_lt_add_left hvw _
  node_eq v := by
    rw [Graph.node_eq_blank (Nat.le_add_right ..), Graph.node_eq_blank (Nat.zero_le v)]
    rfl
  free _ i := congrArg (g.size + ·) (Nat.zero_add i)
  filled _ :=
    have hblank : ∀ v, (∅ : Graph).node v = .blank := fun v => Graph.node_eq_blank (Nat.zero_le v)
    { destination_lt := fun v l w hw => by
        rw [Graph.destinations, hblank] at hw
        exact absurd hw (OrdSet.not_mem_empty w)
      origin_lt := fun v l w hw => by
        rw [Graph.origins, hblank] at hw
        exact absurd hw (OrdSet.not_mem_empty w)
      standsFor_lt := fun v w hw => by
        rw [hblank] at hw
        exact absurd hw (OrdSet.not_mem_empty w) }

/-- The automaton of a tree is the same wherever it is built. So what is known of a tree that is
built by itself holds of it among others. -/
theorem mirrors_automaton (t : Tree) (g : Graph) (nextId : Int) :
    Machine.Mirrors True (g.size + ·)
      { graph := (t.automaton ⟨∅, nextId⟩).2.graph, automaton := (t.automaton ⟨∅, nextId⟩).1 }
      { graph := (t.automaton ⟨g, nextId⟩).2.graph, automaton := (t.automaton ⟨g, nextId⟩).1 } := by
  obtain ⟨hab, hs⟩ := t.steady_build ⟨∅, nextId⟩ ⟨g, nextId⟩ ⟨mirrors_empty g, rfl⟩
  exact ⟨hs.graph, { hab with }⟩

end Tree

end PatternAutomata
