/-
Comparing what states accept.

The words accepted from the states of a graph are the least family of languages that has
the empty word where a state accepts and is closed against its edges
(`languageFrom_le_family`). So to bound what is accepted, it is enough to name languages
that are closed in this way.

One such bound is a simulation: if every edge of one graph is answered in another one by a
path that reads the same, then what is accepted from a state is accepted from each state
that answers it (`languageFrom_le_of_simulation`). A path may read nothing on its way, so
an answer may be longer or shorter than the edge.
-/
import PatternAutomata.Automaton.Language

set_option autoImplicit false

namespace PatternAutomata

/-- The word that an edge with a label reads. -/
def Label.word : Label → List Label
  | .epsilon => []
  | .symbol s => [.symbol s]

/-- A label that is not silent reads itself. -/
theorem Label.word_of_ne {l : Label} (hl : l ≠ .epsilon) : l.word = [l] := by
  cases l with
  | epsilon => exact absurd rfl hl
  | symbol s => rfl

namespace Graph

variable {g h : Graph}

namespace Path

/-- An edge in front of a path reads its label first, or nothing if the label is silent. -/
theorem edge {v w u : Vertex} {l : Label} {word : List Label} (first : w ∈ g.destinations v l)
    (rest : Path g w word u) : Path g v (l.word ++ word) u := by
  by_cases hl : l = .epsilon
  · rw [hl] at first ⊢
    exact .silent first rest
  · rw [Label.word_of_ne hl]
    exact .read hl first rest

/-- An edge is a path by itself. -/
theorem single {v w : Vertex} {l : Label} (first : w ∈ g.destinations v l) :
    Path g v l.word w := by
  have hpath := Path.edge first (.stay w)
  rwa [List.append_nil] at hpath

/-- No path reads a silent label: a silent edge adds nothing to the word. -/
theorem epsilon_not_mem {v w : Vertex} {word : List Label} (hpath : Path g v word w) :
    .epsilon ∉ word := by
  induction hpath with
  | stay => exact List.not_mem_nil
  | silent _ _ ih => exact ih
  | read symbol _ _ ih =>
    intro hmem
    rcases List.mem_cons.1 hmem with heq | hmem
    · exact symbol heq.symm
    · exact ih hmem

/-- Paths are the same in a graph that looks the same in a part which no edge leaves. A path that
starts in the part stays there, so it meets only edges that both graphs have. -/
theorem congr {P : Vertex → Prop}
    (closed : ∀ v, P v → ∀ l, ∀ w ∈ g.destinations v l, P w)
    (destinations_eq : ∀ v, P v → ∀ l, h.destinations v l = g.destinations v l)
    {v w : Vertex} {word : List Label} (hv : P v) (hpath : Path g v word w) :
    Path h v word w := by
  induction hpath with
  | stay => exact .stay _
  | silent first _ ih =>
    have hnext := closed _ hv _ _ first
    rw [← destinations_eq _ hv] at first
    exact .silent first (ih hnext)
  | read symbol first _ ih =>
    have hnext := closed _ hv _ _ first
    rw [← destinations_eq _ hv] at first
    exact .read symbol first (ih hnext)

end Path

/-! ## The least family -/

/-- An accepting state accepts the empty word. -/
theorem nil_mem_languageFrom {v : Vertex} (hacc : (g.node v).isAccepting = true) :
    [] ∈ g.languageFrom v :=
  ⟨v, .stay v, hacc⟩

/-- What is accepted after a path is accepted before it, with what the path reads in front. -/
theorem append_mem_languageFrom {v w : Vertex} {x y : List Label} (hpath : Path g v x w)
    (hy : y ∈ g.languageFrom w) : x ++ y ∈ g.languageFrom v := by
  obtain ⟨u, hu, hacc⟩ := hy
  exact ⟨u, hpath.trans hu, hacc⟩

/-- What is accepted is in every family of languages that is closed against the edges of a part of
the graph which no edge leaves. This is how all upper bounds on languages are proved: the family is
named, and only single edges have to be looked at. -/
theorem languageFrom_le_family {F : Vertex → Language Label} {P : Vertex → Prop}
    (closed : ∀ v, P v → ∀ l, ∀ w ∈ g.destinations v l, P w)
    (accept : ∀ v, P v → (g.node v).isAccepting = true → [] ∈ F v)
    (edge : ∀ v, P v → ∀ l, ∀ w ∈ g.destinations v l, ∀ word ∈ F w, l.word ++ word ∈ F v)
    {v : Vertex} (hv : P v) : g.languageFrom v ≤ F v := by
  rintro word ⟨u, hpath, hacc⟩
  induction hpath with
  | stay => exact accept _ hv hacc
  | silent first _ ih => exact edge _ hv _ _ first _ (ih (closed _ hv _ _ first) hacc)
  | read symbol first _ ih =>
    have hword := edge _ hv _ _ first _ (ih (closed _ hv _ _ first) hacc)
    rwa [Label.word_of_ne symbol] at hword

/-! ## Simulations -/

/-- The words that every answer to a state accepts. -/
def acceptedByAnswers (R : Vertex → Vertex → Prop) (h : Graph) (v : Vertex) : Language Label :=
  { word | ∀ x, R v x → word ∈ h.languageFrom x }

/-- If edges are answered by paths that read the same, what is accepted from a state is accepted
from every state that answers it. The answer to an edge may be a longer path, and may read nothing
on its way; so graphs with and without silent edges can be compared. -/
theorem languageFrom_le_of_simulation {R : Vertex → Vertex → Prop}
    (accept : ∀ v x, R v x → (g.node v).isAccepting = true → [] ∈ h.languageFrom x)
    (edge : ∀ v x, R v x → ∀ l, ∀ w ∈ g.destinations v l, ∃ y, Path h x l.word y ∧ R w y)
    {v x : Vertex} (hR : R v x) : g.languageFrom v ≤ h.languageFrom x := by
  -- the family of what every answer accepts is closed under the edges
  have hF : g.languageFrom v ≤ acceptedByAnswers R h v := by
    apply languageFrom_le_family (P := fun _ => True)
    · exact fun _ _ _ _ _ => trivial
    · intro v _ hacc x hR
      exact accept v x hR hacc
    · intro v _ l w hw word hword x hR
      obtain ⟨y, hpath, hR'⟩ := edge v x hR l w hw
      exact append_mem_languageFrom hpath (hword y hR')
    · trivial
  intro word hword
  exact hF hword x hR

/-- More edges and more accepting states accept more: each edge answers itself. -/
theorem languageFrom_mono (accept : ∀ v, (g.node v).isAccepting = true →
      (h.node v).isAccepting = true)
    (edge : ∀ v l, ∀ w ∈ g.destinations v l, w ∈ h.destinations v l) (v : Vertex) :
    g.languageFrom v ≤ h.languageFrom v := by
  apply languageFrom_le_of_simulation (R := Eq)
  · rintro v _ rfl hacc
    exact nil_mem_languageFrom (accept v hacc)
  · rintro v _ rfl l w hw
    exact ⟨w, .single (edge v l w hw), rfl⟩
  · rfl

/-- Graphs that look the same in a part which no edge leaves accept the same there. So an edit
outside an automaton does not change what the automaton accepts. -/
theorem languageFrom_congr {P : Vertex → Prop}
    (closed : ∀ v, P v → ∀ l, ∀ w ∈ g.destinations v l, P w)
    (destinations_eq : ∀ v, P v → ∀ l, h.destinations v l = g.destinations v l)
    (isAccepting_eq : ∀ v, P v → (h.node v).isAccepting = (g.node v).isAccepting)
    {v : Vertex} (hv : P v) : h.languageFrom v = g.languageFrom v := by
  -- each graph simulates the other one by equality, which stays inside the part
  apply le_antisymm
  · apply languageFrom_le_of_simulation (R := fun v x => v = x ∧ P v)
    · rintro v _ ⟨rfl, hv⟩ hacc
      rw [isAccepting_eq v hv] at hacc
      exact nil_mem_languageFrom hacc
    · rintro v _ ⟨rfl, hv⟩ l w hw
      rw [destinations_eq v hv] at hw
      exact ⟨w, .single hw, rfl, closed v hv l w hw⟩
    · exact ⟨rfl, hv⟩
  · apply languageFrom_le_of_simulation (R := fun v x => v = x ∧ P v)
    · rintro v _ ⟨rfl, hv⟩ hacc
      rw [← isAccepting_eq v hv] at hacc
      exact nil_mem_languageFrom hacc
    · rintro v _ ⟨rfl, hv⟩ l w hw
      have hpart := closed v hv l w hw
      rw [← destinations_eq v hv] at hw
      exact ⟨w, .single hw, rfl, hpart⟩
    · exact ⟨rfl, hv⟩

/-! ## The first letter -/

/-- A word is accepted if it is empty and the state accepts, or if it is read along an edge. This
reads off the first step of a run, and is the equation that the elimination of states works with. -/
theorem mem_languageFrom_iff_edge {v : Vertex} {word : List Label} :
    word ∈ g.languageFrom v ↔ word = [] ∧ (g.node v).isAccepting = true ∨
      ∃ l, ∃ w ∈ g.destinations v l, ∃ rest ∈ g.languageFrom w, word = l.word ++ rest := by
  constructor
  · rintro ⟨u, hpath, hacc⟩
    cases hpath with
    | stay => exact Or.inl ⟨rfl, hacc⟩
    | silent first rest => exact Or.inr ⟨.epsilon, _, first, _, ⟨u, rest, hacc⟩, rfl⟩
    | read symbol first rest =>
      refine Or.inr ⟨_, _, first, _, ⟨u, rest, hacc⟩, ?_⟩
      rw [Label.word_of_ne symbol]
      rfl
  · rintro (⟨rfl, hacc⟩ | ⟨l, w, hw, rest, hrest, rfl⟩)
    · exact nil_mem_languageFrom hacc
    · exact append_mem_languageFrom (.single hw) hrest

end Graph

end PatternAutomata
