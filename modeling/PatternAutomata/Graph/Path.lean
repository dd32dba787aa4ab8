/-
Words along paths.

A path goes from state to state along edges and spells the symbols that it reads on the
way; an edge that reads nothing adds nothing to the word. Paths say what the searches of
a graph find: `mem_closure_iff` is about the empty word, `mem_reachable_iff` about any
word. Reading a word symbol by symbol, with all that can be reached without reading
taken in after each symbol, finds the ends of all paths that spell it
(`mem_ends_iff`).
-/
import PatternAutomata.Graph.Reach

set_option autoImplicit false

namespace PatternAutomata.Graph

/-- There is a path from one state to another that spells a word. -/
inductive Path (g : Graph) : Vertex → List Label → Vertex → Prop where
  | stay (v : Vertex) : Path g v [] v
  | silent {v w u : Vertex} {word : List Label} (first : w ∈ g.destinations v .epsilon)
      (rest : Path g w word u) : Path g v word u
  | read {v w u : Vertex} {l : Label} {word : List Label} (symbol : l ≠ .epsilon)
      (first : w ∈ g.destinations v l) (rest : Path g w word u) : Path g v (l :: word) u

namespace Path

variable {g : Graph}

/-- One path after another spells one word after the other. By induction on the first path. -/
theorem trans {v w u : Vertex} {x y : List Label} (hx : Path g v x w) (hy : Path g w y u) :
    Path g v (x ++ y) u := by
  induction hx with
  | stay => exact hy
  | silent first _ ih => exact .silent first (ih hy)
  | read symbol first _ ih => exact .read symbol first (ih hy)

/-- One edge that reads a symbol is a path. -/
theorem step {v w : Vertex} {l : Label} (hl : l ≠ .epsilon) (h : w ∈ g.destinations v l) :
    Path g v [l] w :=
  .read hl h (.stay w)

/-- A path that spells a word with a first symbol goes along edges that read nothing, then along an
edge that reads the symbol, and then on. This is how a path is taken apart from the front, and what
reading a word symbol by symbol is compared with. -/
theorem cons_iff {v u : Vertex} {l : Label} {word : List Label} :
    Path g v (l :: word) u ↔
      l ≠ .epsilon ∧ ∃ a b, Path g v [] a ∧ b ∈ g.destinations a l ∧ Path g b word u := by
  constructor
  · intro h
    generalize hx : l :: word = x at h
    induction h with
    | stay => nomatch hx
    | silent first _ ih =>
      obtain ⟨hl, a, b, ha, hb, hu⟩ := ih hx
      exact ⟨hl, a, b, .silent first ha, hb, hu⟩
    | read symbol first rest =>
      obtain ⟨rfl, rfl⟩ := List.cons.inj hx
      exact ⟨symbol, _, _, .stay _, first, rest⟩
  · intro ⟨hl, a, b, ha, hb, hu⟩
    exact ha.trans (.read hl hb hu)

/-- What holds of a state and is handed on by each edge holds at the end of a path: the induction on
paths, packaged once, with an invariant of states in place of a statement about the path. -/
theorem preserves {p : Vertex → Prop} {v u : Vertex} {word : List Label}
    (h : Path g v word u) (hv : p v) (hnext : ∀ v, p v → ∀ l, ∀ w ∈ g.destinations v l, p w) :
    p u := by
  induction h with
  | stay => exact hv
  | silent first _ ih => exact ih (hnext _ hv _ _ first)
  | read _ first _ ih => exact ih (hnext _ hv _ _ first)

end Path

/-! ## What the searches find -/

/-- The closure holds what can be reached without reading a symbol. Both directions are inductions:
over what the search meets, and over the path. -/
theorem mem_closure_iff {g : Graph} {vs : VertexSet} {w : Vertex} :
    w ∈ g.closure vs ↔ ∃ v ∈ vs, Path g v [] w := by
  constructor
  · apply forall_mem_closure
    · intro v hv
      exact ⟨v, hv, .stay v⟩
    · intro v ⟨u, hu, h⟩ w hw
      exact ⟨u, hu, h.trans (.silent hw (.stay w))⟩
  · intro ⟨v, hv, h⟩
    -- the empty word leaves no room for an edge that reads a symbol
    generalize hx : ([] : List Label) = x at h
    have hmem := g.mem_closure_of_mem hv
    clear hv
    induction h with
    | stay => exact hmem
    | silent first _ ih => exact ih hx (mem_closure_of_mem_destinations hmem first)
    | read => nomatch hx

/-- From nowhere no symbol leads anywhere. A run that has lost all its states never finds one
again. -/
theorem closure_targets_empty {g : Graph} (l : Label) : g.closure (g.targets ∅ l) = ∅ := by
  apply OrdSet.eq_empty_iff.2
  intro w hw
  obtain ⟨u, hu, _⟩ := mem_closure_iff.1 hw
  obtain ⟨v, hv, _⟩ := mem_targets.1 hu
  exact OrdSet.not_mem_empty v hv

/-- The closure is closed: nothing more can be reached without reading. A search from a closed set
therefore finds that set again. -/
theorem mem_closure_of_path {g : Graph} {vs : VertexSet} {v w : Vertex}
    (hv : v ∈ g.closure vs) (h : Path g v [] w) : w ∈ g.closure vs := by
  obtain ⟨u, hu, huv⟩ := mem_closure_iff.1 hv
  exact mem_closure_iff.2 ⟨u, hu, huv.trans h⟩

/-- What can be reached at all is what some word leads to. -/
theorem mem_reachable_iff {g : Graph} {v w : Vertex} :
    w ∈ g.reachable v ↔ ∃ word, Path g v word w := by
  constructor
  · apply forall_mem_reachable
    · exact ⟨[], .stay v⟩
    · intro u ⟨word, h⟩ l w hw
      by_cases hl : l = .epsilon
      · rw [hl] at hw
        exact ⟨word ++ [], h.trans (.silent hw (.stay w))⟩
      · exact ⟨word ++ [l], h.trans (.step hl hw)⟩
  · intro ⟨word, h⟩
    refine h.preserves (p := (· ∈ g.reachable v)) (g.self_mem_reachable v) ?_
    intro u hu l w hw
    exact mem_reachable_of_mem_destinations hu hw

/-! ## Reading words -/

/-- Where a word leads to from some states: each symbol is followed, and then all that can
be reached without reading is taken in. -/
def ends (g : Graph) (vs : VertexSet) (word : List Label) : VertexSet :=
  word.foldl (fun vs l => g.closure (g.targets vs l)) (g.closure vs)

/-- A word with one more symbol: follow the symbol, then close. This is the step a run takes. -/
theorem ends_append {g : Graph} {vs : VertexSet} {word : List Label} {l : Label} :
    g.ends vs (word ++ [l]) = g.closure (g.targets (g.ends vs word) l) := by
  rw [ends, List.foldl_append]
  rfl

/-- Reading from a set of states that is closed finds the ends of the paths from it. By induction on
the word: the set is exchanged for what the first symbol leads to, closed again, so that what is
assumed of the set holds of the next one too. -/
theorem mem_foldl_closure_iff {g : Graph} {vs : VertexSet} {word : List Label} {w : Vertex}
    (hword : .epsilon ∉ word) (hvs : ∀ v ∈ vs, ∀ u, Path g v [] u → u ∈ vs) :
    w ∈ word.foldl (fun vs l => g.closure (g.targets vs l)) vs ↔ ∃ v ∈ vs, Path g v word w := by
  induction word generalizing vs with
  | nil =>
    constructor
    · intro h
      exact ⟨w, h, .stay w⟩
    · intro ⟨v, hv, h⟩
      exact hvs v hv w h
  | cons l word ih =>
    have hl : l ≠ .epsilon := fun h => hword (h ▸ List.mem_cons_self)
    have hrest : .epsilon ∉ word := fun h => hword (List.mem_cons_of_mem l h)
    rw [List.foldl_cons, ih hrest fun _ hv _ h => mem_closure_of_path hv h]
    constructor
    · intro ⟨c, hc, hcw⟩
      obtain ⟨b, hb, hbc⟩ := mem_closure_iff.1 hc
      obtain ⟨a, ha, hab⟩ := mem_targets.1 hb
      exact ⟨a, ha, .read hl hab (hbc.trans hcw)⟩
    · intro ⟨v, hv, h⟩
      -- what comes before the first symbol stays inside the set
      obtain ⟨_, a, b, hva, hab, hbw⟩ := Path.cons_iff.1 h
      have hb : b ∈ g.targets vs l := mem_targets.2 ⟨a, hvs v hv a hva, hab⟩
      exact ⟨b, mem_closure_of_mem hb, hbw⟩

/-- Reading a word finds the ends of all paths that spell it. The word may not hold the silent
label: as a symbol to be read it would have to be taken along a silent edge, which no reading
does. -/
theorem mem_ends_iff {g : Graph} {vs : VertexSet} {word : List Label} {w : Vertex}
    (hword : .epsilon ∉ word) : w ∈ g.ends vs word ↔ ∃ v ∈ vs, Path g v word w := by
  rw [ends, mem_foldl_closure_iff hword fun _ hv _ h => mem_closure_of_path hv h]
  constructor
  · intro ⟨c, hc, hcw⟩
    obtain ⟨v, hv, hvc⟩ := mem_closure_iff.1 hc
    exact ⟨v, hv, hvc.trans hcw⟩
  · intro ⟨v, hv, h⟩
    exact ⟨v, mem_closure_of_mem hv, h⟩

/-- The same from a single state, which is how automata are started. -/
theorem mem_ends_singleton_iff {g : Graph} {v w : Vertex} {word : List Label}
    (hword : .epsilon ∉ word) : w ∈ g.ends {v} word ↔ Path g v word w := by
  rw [mem_ends_iff hword]
  constructor
  · rintro ⟨u, hu, hpath⟩
    rwa [OrdSet.mem_singleton.1 hu] at hpath
  · exact fun hpath => ⟨v, OrdSet.mem_singleton.2 rfl, hpath⟩

end PatternAutomata.Graph
