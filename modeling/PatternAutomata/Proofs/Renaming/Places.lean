/-
States at other places.

Nothing that is done with automata depends on where in a graph their states lie: places are
compared only with one another. So what is done in one graph can be followed in another one
that holds the same states at other places, in the same order (`Graph.Mirrors`). What is
looked up in the second graph is what is looked up in the first one, with its places renamed,
and an edge that is added or taken away in both leaves graphs that mirror each other again.

New states go to the first free place. For these to correspond as well, the free places of the
two graphs have to, and nothing in the first graph may mention a place that is still free.
That is asked only where new states are made or the graphs grow apart (`whole`).
-/
import Mathlib.Order.Monotone.Basic
import PatternAutomata.Automaton.Basic

set_option autoImplicit false

namespace PatternAutomata

/-! ## Images of sets

The names of the members of a set are again a set. Where the naming keeps the order, the image is
listed in the order of the set, and every operation on sets goes through it. -/

namespace OrdSet

section Image

variable {α β : Type} [Ord α] [Ord β] [Std.LawfulEqOrd β] [Std.TransOrd β]

/-- The set of the values of a function at the members of a set. -/
def image (f : α → β) (s : OrdSet α) : OrdSet β := ofList (s.toList.map f)

/-- The members of the image are the values at members. -/
@[simp] theorem mem_image {f : α → β} {s : OrdSet α} {b : β} :
    b ∈ s.image f ↔ ∃ a ∈ s, f a = b := by
  rw [image, mem_ofList, List.mem_map]
  exact Iff.rfl

/-- The value at a member is in the image. -/
theorem mem_image_of_mem {f : α → β} {s : OrdSet α} {a : α} (ha : a ∈ s) : f a ∈ s.image f :=
  mem_image.2 ⟨a, ha, rfl⟩

/-- Only the values at members count. -/
theorem image_congr {f k : α → β} {s : OrdSet α} (hfk : ∀ a ∈ s, f a = k a) :
    s.image f = s.image k := by
  rw [image, image, List.map_congr_left fun a ha => hfk a (mem_toList.1 ha)]

/-- One member has one value. -/
@[simp] theorem image_singleton {f : α → β} {a : α} : ({a} : OrdSet α).image f = {f a} := rfl

end Image

section Rename

variable {ρ : Nat → Nat}

/-- A function that keeps the order keeps sets listed in order. So what goes through the members of
a set one after the other goes through the names in the same order. -/
theorem toList_image (hρ : StrictMono ρ) (s : OrdSet Nat) :
    (s.image ρ).toList = s.toList.map ρ := by
  apply eq_of_ascending (r := fun a b : Nat => compare a b = .lt) compare_asymm
  · exact (s.image ρ).ascending
  · rw [List.pairwise_map]
    refine s.ascending.imp ?_
    intro a b hab
    rw [Nat.compare_eq_lt] at hab ⊢
    exact hρ hab
  · intro b
    rw [mem_toList, mem_image, List.mem_map]
    exact Iff.rfl

/-- No two places have the same name, so a name is in the image only if its place is in the set. -/
theorem mem_image_iff (hρ : StrictMono ρ) {s : OrdSet Nat} {a : Nat} : ρ a ∈ s.image ρ ↔ a ∈ s := by
  rw [mem_image]
  constructor
  · rintro ⟨b, hb, hba⟩
    rwa [← hρ.injective hba]
  · exact fun ha => ⟨a, ha, rfl⟩

/-- Sets with the same image are the same. -/
theorem image_injective (hρ : StrictMono ρ) : Function.Injective (image ρ : OrdSet Nat → _) := by
  intro s t hst
  ext a
  rw [← mem_image_iff hρ, hst, mem_image_iff hρ]

/-- Naming each place by itself changes nothing. -/
theorem image_id (s : OrdSet Nat) : s.image id = s := by
  ext a
  simp

/-- The image of the set of a list is the set of the list of names. The list may be in any order,
and may repeat itself. -/
theorem image_ofList (l : List Nat) : (ofList l).image ρ = ofList (l.map ρ) := by
  ext b
  simp only [mem_image, mem_ofList, List.mem_map]

/-- A new member brings its name. -/
theorem image_insert (s : OrdSet Nat) (a : Nat) :
    (s.insert a).image ρ = (s.image ρ).insert (ρ a) := by
  ext b
  simp only [mem_image, mem_insert]
  constructor
  · rintro ⟨c, rfl | hc, rfl⟩
    · exact Or.inl rfl
    · exact Or.inr ⟨c, hc, rfl⟩
  · rintro (rfl | ⟨c, hc, rfl⟩)
    · exact ⟨a, Or.inl rfl, rfl⟩
    · exact ⟨c, Or.inr hc, rfl⟩

/-- The image of a union is the union of the images. -/
theorem image_union (s t : OrdSet Nat) : (s ∪ t).image ρ = s.image ρ ∪ t.image ρ := by
  ext b
  simp only [mem_image, mem_union]
  constructor
  · rintro ⟨a, ha | ha, rfl⟩
    · exact Or.inl ⟨a, ha, rfl⟩
    · exact Or.inr ⟨a, ha, rfl⟩
  · rintro (⟨a, ha, rfl⟩ | ⟨a, ha, rfl⟩)
    · exact ⟨a, Or.inl ha, rfl⟩
    · exact ⟨a, Or.inr ha, rfl⟩

/-- Members are picked out of an image as they are picked out of the set. -/
theorem image_filter {p q : Nat → Bool} (s : OrdSet Nat) (hpq : ∀ a ∈ s, q (ρ a) = p a) :
    (s.image ρ).filter q = (s.filter p).image ρ := by
  ext b
  simp only [mem_filter, mem_image]
  constructor
  · rintro ⟨⟨a, ha, rfl⟩, hq⟩
    exact ⟨a, ⟨ha, hpq a ha ▸ hq⟩, rfl⟩
  · rintro ⟨a, ⟨ha, hp⟩, rfl⟩
    exact ⟨⟨a, ha, rfl⟩, (hpq a ha).trans hp⟩

/-- Taking a member away takes its name away, because no other member has it. -/
theorem image_erase (hρ : StrictMono ρ) (s : OrdSet Nat) (a : Nat) :
    (s.erase a).image ρ = (s.image ρ).erase (ρ a) := by
  symm
  apply image_filter
  intro b _
  simp [hρ.injective.eq_iff]

/-- The image of a difference is the difference of the images, because no two places have the same
name. -/
theorem image_sdiff (hρ : StrictMono ρ) (s t : OrdSet Nat) :
    (s \ t).image ρ = s.image ρ \ t.image ρ := by
  symm
  apply image_filter
  intro b _
  exact decide_eq_decide.2 (not_congr (mem_image_iff hρ))

/-- The image is empty only if the set is. -/
theorem isEmpty_image (s : OrdSet Nat) : (s.image ρ).isEmpty = s.isEmpty := by
  rw [Bool.eq_iff_iff, isEmpty_iff, isEmpty_iff]
  constructor
  · exact fun h a ha => h (ρ a) (mem_image_of_mem ha)
  · intro h b hb
    obtain ⟨a, ha, _⟩ := mem_image.1 hb
    exact h a ha

/-- There are as many names as members. -/
theorem size_image (hρ : StrictMono ρ) (s : OrdSet Nat) : (s.image ρ).size = s.size := by
  rw [size, toList_image hρ, List.length_map, size]

/-- The image of a union of several sets is the union of their images. -/
theorem image_unions (l : List (OrdSet Nat)) :
    (unions l).image ρ = unions (l.map (image ρ)) := by
  induction l with
  | nil => rfl
  | cons s l ih => exact (image_union s (unions l)).trans (congrArg _ ih)

end Rename

end OrdSet

/-! ## Renamed states

A state mentions other places in its tables and in what it stands for. Renaming it renames these
and keeps everything else. -/

namespace Table

variable {ρ : Vertex → Vertex}

/-- The table with all places renamed. -/
def rename (ρ : Vertex → Vertex) (t : Table) : Table where
  entries := t.entries.map fun e => (e.1, e.2.image ρ)
  ascending := List.pairwise_map.2 t.ascending

/-- A table has the same labels under new names, with the names of what it had there. -/
theorem get?_rename (t : Table) (l : Label) :
    (t.rename ρ).get? l = (t.get? l).map (·.image ρ) := by
  show (t.entries.map fun e => (e.1, e.2.image ρ)).lookup l = (t.entries.lookup l).map _
  induction t.entries with
  | nil => rfl
  | cons e entries ih =>
    obtain ⟨k, vs⟩ := e
    rw [List.map_cons, OrdMap.lookup_cons_eq_ite, OrdMap.lookup_cons_eq_ite, ih]
    split <;> rfl

/-- What is under a label is renamed. -/
theorem under_rename (t : Table) (l : Label) : (t.rename ρ).under l = (t.under l).image ρ := by
  rw [under, under, get?_rename]
  cases t.get? l with
  | none => rfl
  | some vs => rfl

/-- The same labels are in use. -/
theorem contains_rename (t : Table) (l : Label) : (t.rename ρ).contains l = t.contains l := by
  rw [OrdMap.contains, OrdMap.contains, get?_rename, Option.isSome_map]

/-- Noting a place and renaming is renaming and noting the name. -/
theorem rename_note (t : Table) (l : Label) (v : Vertex) :
    (t.note l v).rename ρ = (t.rename ρ).note l (ρ v) := by
  apply OrdMap.ext_get?
  intro k
  rw [get?_rename, note, note, OrdMap.get?_insert, OrdMap.get?_insert, get?_rename, under_rename,
    ← OrdSet.image_insert]
  split <;> rfl

/-- Striking a place out and renaming is renaming and striking out the name. -/
theorem rename_strike (hρ : StrictMono ρ) (t : Table) (l : Label) (v : Vertex) :
    (t.strike l v).rename ρ = (t.rename ρ).strike l (ρ v) := by
  rw [strike, strike, under_rename, ← OrdSet.image_erase hρ, OrdSet.isEmpty_image]
  apply OrdMap.ext_get?
  intro k
  rw [get?_rename]
  split
  · rw [OrdMap.get?_erase, OrdMap.get?_erase, get?_rename]
    split <;> rfl
  · rw [OrdMap.get?_insert, OrdMap.get?_insert, get?_rename]
    split <;> rfl

/-- Only the names of what is in a table matter. -/
theorem rename_congr {σ : Vertex → Vertex} {t : Table}
    (h : ∀ l, ∀ v ∈ t.under l, ρ v = σ v) : t.rename ρ = t.rename σ := by
  apply OrdMap.ext_get?
  intro l
  rw [get?_rename, get?_rename]
  cases hget : t.get? l with
  | none => rfl
  | some vs =>
    have hunder : t.under l = vs := by rw [under, hget, Option.getD_some]
    exact congrArg some (OrdSet.image_congr fun v hv => h l v (hunder ▸ hv))

/-- Naming each place by itself keeps the table. -/
theorem rename_id (t : Table) : t.rename id = t := by
  apply OrdMap.ext_get?
  intro l
  rw [get?_rename]
  cases t.get? l with
  | none => rfl
  | some vs => exact congrArg some (OrdSet.image_id vs)

end Table

/-- The state with all places that it mentions renamed. -/
def Node.rename (ρ : Vertex → Vertex) (n : Node) : Node :=
  { n with
    next := n.next.rename ρ
    previous := n.previous.rename ρ
    standsFor := n.standsFor.image ρ }

/-- The edge between renamed places. -/
def Edge.rename (ρ : Vertex → Vertex) (e : Edge) : Edge := ⟨ρ e.source, e.label, ρ e.target⟩

/-! ## Mirrored graphs

The graphs are compared place by place. That no state mentions a free place is asked in addition if
states are going to be made: a new state must not get an edge that was there before it. -/

namespace Graph

/-- Naming each place by itself keeps the state. -/
theorem rename_id (n : Node) : n.rename id = n := by
  rw [Node.rename, Table.rename_id, Table.rename_id, OrdSet.image_id]

/-- No state mentions a place that is still free. -/
structure Filled (g : Graph) : Prop where
  destination_lt : ∀ v l, ∀ w ∈ g.destinations v l, w < g.size
  origin_lt : ∀ v l, ∀ w ∈ g.origins v l, w < g.size
  standsFor_lt : ∀ v, ∀ w ∈ (g.node v).standsFor, w < g.size

/-- Where no free place is mentioned, only the names of filled places matter. -/
theorem Filled.rename_congr {g : Graph} (hg : g.Filled) {ρ σ : Vertex → Vertex}
    (h : ∀ v < g.size, ρ v = σ v) (v : Vertex) : (g.node v).rename ρ = (g.node v).rename σ := by
  have hnext : (g.node v).next.rename ρ = (g.node v).next.rename σ :=
    Table.rename_congr fun l w hw => h w (hg.destination_lt v l w hw)
  have hprevious : (g.node v).previous.rename ρ = (g.node v).previous.rename σ :=
    Table.rename_congr fun l w hw => h w (hg.origin_lt v l w hw)
  have hstands : (g.node v).standsFor.image ρ = (g.node v).standsFor.image σ :=
    OrdSet.image_congr fun w hw => h w (hg.standsFor_lt v w hw)
  rw [Node.rename, Node.rename, hnext, hprevious, hstands]

/-- The second graph has at the new name of a place what the first one has at the place. If the
first graph is mirrored as a whole, free places correspond in their order. -/
structure Mirrors (whole : Prop) (ρ : Vertex → Vertex) (g h : Graph) : Prop where
  strictMono : StrictMono ρ
  node_eq : ∀ v, h.node (ρ v) = (g.node v).rename ρ
  free : whole → ∀ i, ρ (g.size + i) = h.size + i
  filled : whole → g.Filled

namespace Mirrors

variable {whole : Prop} {ρ : Vertex → Vertex} {g h : Graph}

/-! ### Looking around

What is looked up at the new name of a place is what is looked up at the place, renamed if it
mentions places. -/

/-- An edge leads to the new name of its target. -/
theorem destinations_eq (hm : g.Mirrors whole ρ h) (v : Vertex) (l : Label) :
    h.destinations (ρ v) l = (g.destinations v l).image ρ := by
  rw [destinations, hm.node_eq]
  exact Table.under_rename _ l

/-- An edge comes from the new name of its source. -/
theorem origins_eq (hm : g.Mirrors whole ρ h) (v : Vertex) (l : Label) :
    h.origins (ρ v) l = (g.origins v l).image ρ := by
  rw [origins, hm.node_eq]
  exact Table.under_rename _ l

/-- A state keeps its identifier under its new name. -/
theorem id_eq (hm : g.Mirrors whole ρ h) (v : Vertex) : (h.node (ρ v)).id = (g.node v).id := by
  rw [hm.node_eq]
  rfl

/-- A state keeps its start flag. -/
theorem isStart_eq (hm : g.Mirrors whole ρ h) (v : Vertex) :
    (h.node (ρ v)).isStart = (g.node v).isStart := by
  rw [hm.node_eq]
  rfl

/-- A state accepts under its new name if it does under the old one. -/
theorem isAccepting_eq (hm : g.Mirrors whole ρ h) (v : Vertex) :
    (h.node (ρ v)).isAccepting = (g.node v).isAccepting := by
  rw [hm.node_eq]
  rfl

/-- A state keeps its trap flag. -/
theorem isTrap_eq (hm : g.Mirrors whole ρ h) (v : Vertex) :
    (h.node (ρ v)).isTrap = (g.node v).isTrap := by
  rw [hm.node_eq]
  rfl

/-- As many edges are counted at the new name. -/
theorem indegree_eq (hm : g.Mirrors whole ρ h) (v : Vertex) :
    (h.node (ρ v)).indegree = (g.node v).indegree := by
  rw [hm.node_eq]
  rfl

/-- An edge is there between the new names if it is there between the old ones. -/
theorem hasEdge_eq (hm : g.Mirrors whole ρ h) (e : Edge) :
    h.hasEdge (e.rename ρ) = g.hasEdge e := by
  rw [hasEdge, hasEdge, Bool.eq_iff_iff, decide_eq_true_eq, decide_eq_true_eq]
  show ρ e.target ∈ h.destinations (ρ e.source) e.label ↔ _
  rw [hm.destinations_eq, OrdSet.mem_image_iff hm.strictMono]

/-- Places are listed in the same order, for their states have the same identifiers. If two
identifiers are equal, the order of the list decides, and that is kept as well. -/
theorem sortById_eq (hm : g.Mirrors whole ρ h) (vs : List Vertex) :
    h.sortById (vs.map ρ) = (g.sortById vs).map ρ := by
  rw [sortById, sortById]
  symm
  apply List.map_mergeSort
  intro v _ w _
  rw [hm.id_eq, hm.id_eq]

/-- A set of states is gone through in the same order. -/
theorem inOrder_eq (hm : g.Mirrors whole ρ h) (vs : VertexSet) :
    h.inOrder (vs.image ρ) = (g.inOrder vs).map ρ := by
  rw [inOrder, OrdSet.toList_image hm.strictMono, hm.sortById_eq, inOrder]

/-- The states of a set have the same identifiers in the same order. -/
theorem ids_eq (hm : g.Mirrors whole ρ h) (vs : VertexSet) : h.ids (vs.image ρ) = g.ids vs := by
  rw [ids, hm.inOrder_eq, List.map_map, ids]
  exact List.map_congr_left fun v _ => hm.id_eq v

/-- The states of a set have the same identifiers. -/
theorem idSet_eq (hm : g.Mirrors whole ρ h) (vs : VertexSet) :
    h.idSet (vs.image ρ) = g.idSet vs := by
  rw [idSet, OrdSet.toList_image hm.strictMono, List.map_map, idSet]
  exact congrArg _ (List.map_congr_left fun v _ => hm.id_eq v)

/-- The edges out of a state are listed in the same order, label by label and target by target. -/
theorem outEdges_eq (hm : g.Mirrors whole ρ h) (v : Vertex) :
    h.outEdges (ρ v) = (g.outEdges v).map fun (l, w) => (l, ρ w) := by
  have hentries : (h.node (ρ v)).next.entries =
      (g.node v).next.entries.map fun e => (e.1, e.2.image ρ) := by
    rw [hm.node_eq]
    rfl
  rw [outEdges, hentries, List.flatMap_map, outEdges, List.map_flatMap]
  congr 1
  funext e
  simp only [hm.inOrder_eq, List.map_map]
  rfl

/-- The edges out of several states are listed in the same order. -/
theorem edgesFrom_eq (hm : g.Mirrors whole ρ h) (vs : List Vertex) :
    h.edgesFrom (vs.map ρ) = (g.edgesFrom vs).map (Edge.rename ρ) := by
  rw [edgesFrom, edgesFrom, List.flatMap_map, List.map_flatMap]
  congr 1
  funext v
  rw [hm.outEdges_eq, List.map_map, List.map_map]
  rfl

/-! ### Searching

A search meets the new names of what it meets in the first graph. -/

/-- What is reached without reading is reached at the new names. Both graphs have the same silent
edges out of corresponding places, and no edge leads from a new name to a place without an old
one. -/
theorem closure_eq (hm : g.Mirrors whole ρ h) (vs : VertexSet) :
    h.closure (vs.image ρ) = (g.closure vs).image ρ := by
  ext w
  constructor
  · apply forall_mem_closure (p := fun w => w ∈ (g.closure vs).image ρ)
    · intro w hw
      obtain ⟨v, hv, rfl⟩ := OrdSet.mem_image.1 hw
      exact OrdSet.mem_image_of_mem (mem_closure_of_mem hv)
    · intro w hw u hu
      obtain ⟨v, hv, rfl⟩ := OrdSet.mem_image.1 hw
      rw [hm.destinations_eq] at hu
      obtain ⟨x, hx, rfl⟩ := OrdSet.mem_image.1 hu
      exact OrdSet.mem_image_of_mem (mem_closure_of_mem_destinations hv hx)
  · intro hw
    obtain ⟨v, hv, rfl⟩ := OrdSet.mem_image.1 hw
    refine forall_mem_closure (p := fun v => ρ v ∈ h.closure (vs.image ρ)) ?_ ?_ v hv
    · exact fun v hv => mem_closure_of_mem (OrdSet.mem_image_of_mem hv)
    · intro v hv w hw
      apply mem_closure_of_mem_destinations hv
      rw [hm.destinations_eq]
      exact OrdSet.mem_image_of_mem hw

/-- The new names of what leads to some places are what leads to the new names of these. -/
theorem mem_ancestors_iff (hm : g.Mirrors whole ρ h) (vs : VertexSet) (w : Vertex) :
    w ∈ h.ancestors (vs.image ρ) ↔ ∃ v ∈ g.ancestors vs, ρ v = w := by
  constructor
  · apply forall_mem_ancestors (p := fun w => ∃ v ∈ g.ancestors vs, ρ v = w)
    · intro w hw
      obtain ⟨v, hv, rfl⟩ := OrdSet.mem_image.1 hw
      exact ⟨v, mem_ancestors_of_mem hv, rfl⟩
    · rintro w ⟨v, hv, rfl⟩ l u hu
      rw [hm.origins_eq] at hu
      obtain ⟨x, hx, rfl⟩ := OrdSet.mem_image.1 hu
      exact ⟨x, mem_ancestors_of_mem_origins hv hx, rfl⟩
  · rintro ⟨v, hv, rfl⟩
    refine forall_mem_ancestors (p := fun v => ρ v ∈ h.ancestors (vs.image ρ)) ?_ ?_ v hv
    · exact fun v hv => mem_ancestors_of_mem (OrdSet.mem_image_of_mem hv)
    · intro v hv l w hw
      apply mem_ancestors_of_mem_origins (l := l) hv
      rw [hm.origins_eq]
      exact OrdSet.mem_image_of_mem hw

/-- What a symbol leads to from a set is renamed with the set. -/
theorem targets_eq (hm : g.Mirrors whole ρ h) (vs : VertexSet) (l : Label) :
    h.targets (vs.image ρ) l = (g.targets vs l).image ρ := by
  rw [targets, OrdSet.toList_image hm.strictMono, targets, OrdSet.image_unions, List.map_map,
    List.map_map]
  congr 1
  exact List.map_congr_left fun v _ => hm.destinations_eq v l

/-- A state of the set accepts in both graphs or in neither. -/
theorem anyAccepting_eq (hm : g.Mirrors whole ρ h) (vs : VertexSet) :
    h.anyAccepting (vs.image ρ) = g.anyAccepting vs := by
  rw [anyAccepting, OrdSet.toList_image hm.strictMono, List.any_map, anyAccepting]
  congr 1
  funext v
  exact hm.isAccepting_eq v

end Mirrors

end Graph

end PatternAutomata
