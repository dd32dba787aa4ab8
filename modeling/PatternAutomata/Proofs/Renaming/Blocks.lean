/-
Minimizing goes alike in machines that mirror each other.

A partition mirrors another one if it has the renamed blocks in the same order and notes each
renamed state with its renamed block (`Partition.Mirrors`). Grouping, splitting and refining
compare labels, accepting flags and blocks with one another and nothing else, so they keep
this. The states made of the blocks of corresponding partitions are put at the first free
places of both graphs, which correspond (`Machine.Mirrors.quotient`).
-/
import Mathlib.Data.List.Basic
import PatternAutomata.Proofs.Canonical.Minimizing
import PatternAutomata.Proofs.Renaming.Subsets

set_option autoImplicit false

namespace PatternAutomata

variable {whole : Prop} {ρ : Vertex → Vertex}

namespace Partition

/-! ## Mirrored partitions

A partition is a list of blocks and a table that says in which block a state is. Both are renamed
together. -/

/-- The second partition has the blocks of the first one under new names. -/
structure Mirrors (ρ : Vertex → Vertex) (p q : Partition) : Prop where
  blocks_eq : q.blocks = p.blocks.map (OrdSet.image ρ)
  blockOf?_eq : ∀ v, q.blockOf? (ρ v) = (p.blockOf? v).map (OrdSet.image ρ)

/-- Without blocks there is nothing to rename. -/
theorem mirrors_empty : Mirrors ρ ∅ ∅ where
  blocks_eq := rfl
  blockOf?_eq v := by
    have hnone : ∀ v, (∅ : Partition).blockOf? v = none := fun _ => Std.TreeMap.getElem?_emptyc
    rw [hnone, hnone, Option.map_none]

namespace Mirrors

variable {p q : Partition}

/-- A block is added in both partitions, and its states are noted with it. -/
theorem add (hρ : StrictMono ρ) (hpq : p.Mirrors ρ q) (b : VertexSet) :
    (p.add b).Mirrors ρ (q.add (b.image ρ)) where
  blocks_eq := by
    have hmem : b.image ρ ∈ q.blocks ↔ b ∈ p.blocks := by
      rw [hpq.blocks_eq]
      exact List.mem_map_of_injective (OrdSet.image_injective hρ)
    show (if b.image ρ ∈ q.blocks then q.blocks else q.blocks ++ [b.image ρ]) =
      (if b ∈ p.blocks then p.blocks else p.blocks ++ [b]).map (OrdSet.image ρ)
    rw [apply_ite (List.map (OrdSet.image ρ)), List.map_append, List.map_singleton,
      ← hpq.blocks_eq]
    exact if_congr hmem rfl rfl
  blockOf?_eq v := by
    rw [blockOf?_add, blockOf?_add, hpq.blockOf?_eq, apply_ite (Option.map (OrdSet.image ρ))]
    exact if_congr (OrdSet.mem_image_iff hρ) rfl rfl

/-- Blocks are added one after the other, by induction on the list. -/
theorem addAll (hρ : StrictMono ρ) (hpq : p.Mirrors ρ q) (bs : List VertexSet) :
    (p.addAll bs).Mirrors ρ (q.addAll (bs.map (OrdSet.image ρ))) := by
  induction bs generalizing p q with
  | nil => exact hpq
  | cons b bs ih => exact ih (hpq.add hρ b)

/-- A block is dropped from both lists, and its states then belong to no block. -/
theorem drop (hρ : StrictMono ρ) (hpq : p.Mirrors ρ q) (b : VertexSet) :
    (p.drop b).Mirrors ρ (q.drop (b.image ρ)) where
  blocks_eq := by
    show q.blocks.erase (b.image ρ) = (p.blocks.erase b).map (OrdSet.image ρ)
    rw [hpq.blocks_eq, List.map_erase (OrdSet.image_injective hρ)]
  blockOf?_eq v := by
    rw [blockOf?_drop, blockOf?_drop, hpq.blockOf?_eq, apply_ite (Option.map (OrdSet.image ρ))]
    exact if_congr (OrdSet.mem_image_iff hρ) rfl rfl

end Mirrors

/-! ## Grouping

Grouping compares labels for equality only. So the labels may be replaced as long as equal ones
stay equal and different ones different. -/

section Grouping

variable {κ ι : Type} [DecidableEq κ] [DecidableEq ι] {f : κ → ι}

/-- A state joins the group of its label in both lists, or opens a new group in both. -/
theorem addToGroup_map (hf : Function.Injective f) (k : κ) (v : Vertex)
    (gs : List (κ × VertexSet)) :
    addToGroup (f k) (ρ v) (gs.map fun e => (f e.1, e.2.image ρ)) =
      (addToGroup k v gs).map fun e => (f e.1, e.2.image ρ) := by
  induction gs with
  | nil => rfl
  | cons e rest ih =>
    obtain ⟨j, vs⟩ := e
    rw [List.map_cons, addToGroup, addToGroup]
    by_cases hjk : j = k
    · rw [if_pos hjk, if_pos (congrArg f hjk), List.map_cons, ← OrdSet.image_insert]
    · rw [if_neg hjk, if_neg fun h => hjk (hf h), List.map_cons, ih]

/-- States are grouped alike if their labels differ alike. By induction on the list of labelled
states. -/
theorem groups_map (hf : Function.Injective f) (labelled : List (κ × Vertex)) :
    groups (labelled.map fun e => (f e.1, ρ e.2)) = (groups labelled).map (OrdSet.image ρ) := by
  have hfold : ∀ gs : List (κ × VertexSet),
      (labelled.map fun e => (f e.1, ρ e.2)).foldl (fun gs e => addToGroup e.1 e.2 gs)
        (gs.map fun e => (f e.1, e.2.image ρ)) =
      (labelled.foldl (fun gs e => addToGroup e.1 e.2 gs) gs).map
        fun e => (f e.1, e.2.image ρ) := by
    induction labelled with
    | nil => exact fun _ => rfl
    | cons e rest ih =>
      intro gs
      rw [List.map_cons, List.foldl_cons, List.foldl_cons, addToGroup_map hf, ih]
  have hgroups := congrArg (List.map Prod.snd) (hfold [])
  rw [List.map_nil, List.map_map] at hgroups
  rw [groups, hgroups, groups, List.map_map]
  rfl

/-- A partition by labels is renamed with the states. -/
theorem mirrors_ofLabels (hρ : StrictMono ρ) (labelled : List (κ × Vertex)) :
    (ofLabels labelled).Mirrors ρ (ofLabels (labelled.map fun e => (e.1, ρ e.2))) := by
  rw [ofLabels, ofLabels, groups_map (f := fun k : κ => k) (fun _ _ h => h)]
  exact mirrors_empty.addAll hρ _

end Grouping

/-! ## Refining

The label of a state in a pass is where each symbol leads, as a block. So the blocks of the second
partition are labels that differ as those of the first one do. -/

namespace Mirrors

variable {p q : Partition} {g h : Graph} (hm : g.Mirrors whole ρ h)

include hm

/-- What a state is compared by is renamed: under each symbol it has the renamed block. -/
theorem signature_eq (hpq : p.Mirrors ρ q) (alphabet : List Label) (v : Vertex) :
    q.signature h alphabet (ρ v) =
      (p.signature g alphabet v).map (Option.map (OrdSet.image ρ)) := by
  rw [signature, signature, List.map_map]
  apply List.map_congr_left
  intro l _
  rw [Function.comp_apply, hm.destinations_eq, OrdSet.toList_image hm.strictMono, List.head?_map]
  cases (g.destinations v l).toList.head? with
  | none => rfl
  | some w => exact hpq.blockOf?_eq w

/-- A block falls apart alike, because different blocks have different images. -/
theorem parts_eq (hpq : p.Mirrors ρ q) (alphabet : List Label) (b : VertexSet) :
    q.parts h alphabet (b.image ρ) = (p.parts g alphabet b).map (OrdSet.image ρ) := by
  have hinjective : Function.Injective
      (List.map (Option.map (OrdSet.image ρ : VertexSet → VertexSet))) :=
    List.map_injective_iff.2 (Option.map_injective (OrdSet.image_injective hm.strictMono))
  rw [parts, parts, ← groups_map hinjective, hm.inOrder_eq, List.map_map, List.map_map]
  congr 1
  apply List.map_congr_left
  intro v _
  exact congrArg (·, ρ v) (hpq.signature_eq hm alphabet v)

/-- Splitting a block drops it and adds its parts, if there are several. -/
theorem split (hpq : p.Mirrors ρ q) (alphabet : List Label) (b : VertexSet) :
    (p.split g alphabet b).Mirrors ρ (q.split h alphabet (b.image ρ)) := by
  rw [Partition.split, Partition.split]
  simp only [hpq.parts_eq hm, List.length_map]
  split
  · exact hpq
  · exact (hpq.drop hm.strictMono b).addAll hm.strictMono _

/-- A pass splits the blocks that were there when it began, one after the other. -/
theorem pass (hpq : p.Mirrors ρ q) (alphabet : List Label) :
    (p.pass g alphabet).Mirrors ρ (q.pass h alphabet) := by
  have hfold : ∀ (bs : List VertexSet) {p q : Partition}, p.Mirrors ρ q →
      (bs.foldl (Partition.split g alphabet) p).Mirrors ρ
        ((bs.map (OrdSet.image ρ)).foldl (Partition.split h alphabet) q) := by
    intro bs
    induction bs with
    | nil => exact fun hpq => hpq
    | cons b bs ih => exact fun hpq => ih (hpq.split hm alphabet b)
  rw [Partition.pass, Partition.pass, hpq.blocks_eq]
  exact hfold p.blocks hpq

omit hm in
/-- As many states are left to be separated from others. -/
theorem slack_eq (hρ : StrictMono ρ) (hpq : p.Mirrors ρ q) : q.slack = p.slack := by
  simp only [slack, hpq.blocks_eq, List.foldl_map, OrdSet.size_image hρ]

/-- Refining ends after as many passes. By induction on its passes: both partitions have the same
slack after each of them, and that is what decides whether another one follows. -/
theorem refineFrom (hpq : p.Mirrors ρ q) (alphabet : List Label) (counts : List Nat) :
    (p.refineFrom g alphabet counts).1.Mirrors ρ (q.refineFrom h alphabet counts).1 := by
  fun_induction Partition.refineFrom p g alphabet counts generalizing q with
  | case1 p counts passed counts' =>
    rename_i hslack ih
    have hpassed : passed.Mirrors ρ (q.pass h alphabet) := hpq.pass hm alphabet
    have hlength : (q.pass h alphabet).blocks.length = passed.blocks.length := by
      rw [hpassed.blocks_eq, List.length_map]
    rw [Partition.refineFrom.eq_def q]
    simp only [hpassed.slack_eq hm.strictMono, hpq.slack_eq hm.strictMono, if_pos hslack, hlength]
    exact ih hpassed
  | case2 p counts passed counts' =>
    rename_i hslack
    have hpassed : passed.Mirrors ρ (q.pass h alphabet) := hpq.pass hm alphabet
    rw [Partition.refineFrom.eq_def q]
    simp only [hpassed.slack_eq hm.strictMono, hpq.slack_eq hm.strictMono, if_neg hslack]
    exact hpassed

end Mirrors

end Partition

/-! ## States made of blocks

The blocks are numbered in the order of their least identifiers, which renaming keeps. -/

namespace Graph.Mirrors

variable {g h : Graph}

/-- The least identifier of a block is kept. -/
theorem leastId_eq (hm : g.Mirrors whole ρ h) (b : VertexSet) :
    Machine.leastId h (b.image ρ) = Machine.leastId g b := by
  rw [Machine.leastId, hm.ids_eq, Machine.leastId]

/-- The blocks are put in the same order. -/
theorem blocksInOrder_eq (hm : g.Mirrors whole ρ h) {p q : Partition} (hpq : p.Mirrors ρ q) :
    Machine.blocksInOrder h q = (Machine.blocksInOrder g p).map (OrdSet.image ρ) := by
  rw [Machine.blocksInOrder, hpq.blocks_eq, Machine.blocksInOrder]
  symm
  apply List.map_mergeSort
  intro b _ c _
  rw [hm.leastId_eq, hm.leastId_eq]

/-- The state that is made of a block accepts alike and stands for the renamed states. -/
theorem nodeOfBlock_eq (hm : g.Mirrors whole ρ h) (number : Nat) (b : VertexSet) :
    Machine.nodeOfBlock h number (b.image ρ) = (Machine.nodeOfBlock g number b).rename ρ := by
  simp only [Machine.nodeOfBlock, OrdSet.toList_image hm.strictMono, List.any_map,
    Function.comp_def, hm.isStart_eq, hm.isAccepting_eq, hm.isTrap_eq]
  rfl

/-- So the new states are the same, apart from the names in what they stand for. -/
theorem blockNodes_eq (hm : g.Mirrors whole ρ h) (blocks : List VertexSet) :
    Machine.blockNodes h (blocks.map (OrdSet.image ρ)) =
      (Machine.blockNodes g blocks).map (Node.rename ρ) := by
  rw [Machine.blockNodes, Machine.blockNodes, List.zipIdx_map, List.map_map, List.map_map]
  apply List.map_congr_left
  rintro ⟨b, i⟩ _
  exact hm.nodeOfBlock_eq i b

/-- A state is in the block with the same number. -/
theorem numberOf_eq (hm : g.Mirrors whole ρ h) {p q : Partition} (hpq : p.Mirrors ρ q)
    (blocks : List VertexSet) (v : Vertex) :
    Machine.numberOf q (blocks.map (OrdSet.image ρ)) (ρ v) = Machine.numberOf p blocks v := by
  rw [Machine.numberOf, Machine.numberOf, hpq.blockOf?_eq]
  cases p.blockOf? v with
  | none => rfl
  | some b =>
    have hindex : (blocks.map (OrdSet.image ρ)).idxOf? (b.image ρ) = blocks.idxOf? b := by
      rw [List.idxOf?, List.findIdx?_map, List.idxOf?]
      congr 1
      funext c
      rw [Function.comp_apply, beq_eq_beq]
      exact (OrdSet.image_injective hm.strictMono).eq_iff
    rw [Option.map_some, Option.bind_some, Option.bind_some, hindex]

end Graph.Mirrors

namespace Machine.Mirrors

open PatternAutomata.Graph

variable {m m' : Machine}

/-- The partition that refining begins with separates accepting states from the others in both
machines. -/
theorem acceptancePartition (hm : m.Mirrors whole ρ m') :
    m.acceptancePartition.Mirrors ρ m'.acceptancePartition := by
  have hlabelled : (m'.graph.inOrder m'.automaton.states).map
      (fun v => ((m'.graph.node v).isAccepting, v)) =
        ((m.graph.inOrder m.automaton.states).map fun v => ((m.graph.node v).isAccepting, v)).map
          fun e => (e.1, ρ e.2) := by
    rw [hm.states_eq, hm.graph.inOrder_eq, List.map_map, List.map_map]
    apply List.map_congr_left
    intro v _
    exact congrArg (·, ρ v) (hm.graph.isAccepting_eq v)
  rw [Machine.acceptancePartition, Machine.acceptancePartition, hlabelled]
  exact Partition.mirrors_ofLabels hm.graph.strictMono _

/-- Refining goes alike from there. -/
theorem refined (hm : m.Mirrors True ρ m') : m.refined.Mirrors ρ m'.refined := by
  rw [Machine.refined, Machine.refined, hm.automaton.alphabet_eq trivial]
  exact hm.acceptancePartition.refineFrom hm.graph _ _

/-- The edges of the automaton are listed in the same order. -/
theorem edges_eq (hm : m.Mirrors whole ρ m') :
    m'.automaton.edges m'.graph = (m.automaton.edges m.graph).map (Edge.rename ρ) := by
  rw [Automaton.edges, hm.states_eq, hm.graph.inOrder_eq, hm.graph.edgesFrom_eq, Automaton.edges]

/-- The edges between blocks go from number to number, counted from the first free place, and the
first free places correspond. -/
theorem blockEdges_eq (hm : m.Mirrors True ρ m') {p q : Partition} (hpq : p.Mirrors ρ q)
    (blocks : List VertexSet) :
    blockEdges m'.graph m'.automaton q (blocks.map (OrdSet.image ρ)) =
      (blockEdges m.graph m.automaton p blocks).map (Edge.rename ρ) := by
  rw [blockEdges, blockEdges, hm.edges_eq, List.map_map, List.map_map]
  apply List.map_congr_left
  intro e _
  simp only [Function.comp_apply, Edge.rename, hm.graph.numberOf_eq hpq, hm.graph.free trivial]

/-- The new automaton has the states at the free places and starts in the block of the old start
state. -/
theorem blockAutomaton (hm : m.Mirrors True ρ m') {p q : Partition} (hpq : p.Mirrors ρ q)
    (blocks : List VertexSet) :
    (blockAutomaton m.graph m.automaton p blocks).Mirrors True ρ
      (Machine.blockAutomaton m'.graph m'.automaton q (blocks.map (OrdSet.image ρ))) where
  start_eq := by
    show m'.graph.size + numberOf q _ m'.automaton.start = ρ (m.graph.size + _)
    rw [hm.start_eq, hm.graph.numberOf_eq hpq, hm.graph.free trivial]
  states_eq := by
    have hrange : (List.range (blocks.map (OrdSet.image ρ)).length).map (m'.graph.size + ·) =
        ((List.range blocks.length).map (m.graph.size + ·)).map ρ := by
      rw [List.length_map, List.map_map]
      exact List.map_congr_left fun i _ => (hm.graph.free trivial i).symm
    show (OrdSet.ofList _).insert (m'.graph.size + numberOf q _ m'.automaton.start) =
      OrdSet.image ρ ((OrdSet.ofList _).insert (m.graph.size + _))
    rw [hrange, OrdSet.image_insert, OrdSet.image_ofList, hm.start_eq, hm.graph.numberOf_eq hpq,
      hm.graph.free trivial]
  alphabet_eq _ := by
    show m'.automaton.alphabet.erase .epsilon = m.automaton.alphabet.erase .epsilon
    rw [hm.automaton.alphabet_eq trivial]
  strict_eq := hm.automaton.strict_eq
  discarded_eq := rfl

/-- Merging the blocks goes alike. It succeeds in both machines, as the refined partitions are
proper; the states that are made are put at the free places of both graphs, and the edges between
the blocks are added in the same order. -/
theorem quotient (hm : m.Mirrors True ρ m') (hs : m.automaton.Sound m.graph)
    (hd : m.graph.Deterministic m.automaton.states) (hs' : m'.automaton.Sound m'.graph)
    (hd' : m'.graph.Deterministic m'.automaton.states) :
    ∃ made made', m.quotient m.refined = .ok made ∧ m'.quotient m'.refined = .ok made' ∧
      Machine.Mirrors True ρ { graph := made.1, automaton := made.2 }
        { graph := made'.1, automaton := made'.2 } := by
  have hblocks := hm.graph.blocksInOrder_eq hm.refined
  have hblocking := blocking_refined hs.wellFormed hs.label_mem hd
  have hblocking' := blocking_refined hs'.wellFormed hs'.label_mem hd'
  refine ⟨_, _, quotient_eq hs.labelled hd proper_refined hblocking,
    quotient_eq hs'.labelled hd' proper_refined hblocking', ?_⟩
  rw [hblocks]
  -- a block holds states of the automaton only, and these are filled places
  have hlt : ∀ b ∈ blocksInOrder m.graph m.refined, ∀ v ∈ b, v < m.graph.size := by
    intro b hb v hv
    exact hs.placed v (proper_refined.mem_of_block (mem_blocksInOrder.1 hb) hv)
  generalize blocksInOrder m.graph m.refined = blocks at hlt
  have hbare : ∀ n ∈ blockNodes m.graph blocks,
      n.next = ∅ ∧ n.previous = ∅ ∧ ∀ w ∈ n.standsFor, w < m.graph.size := by
    intro n hn
    obtain ⟨⟨b, i⟩, hmem, rfl⟩ := List.mem_map.1 hn
    exact ⟨rfl, rfl, hlt b (List.fst_mem_of_mem_zipIdx hmem)⟩
  have hunlinked : Machine.Mirrors True ρ
      { graph := m.graph.addAll (blockNodes m.graph blocks)
        automaton := Machine.blockAutomaton m.graph m.automaton m.refined blocks }
      { graph := m'.graph.addAll ((blockNodes m.graph blocks).map (Node.rename ρ))
        automaton := Machine.blockAutomaton m'.graph m'.automaton m'.refined
          (blocks.map (OrdSet.image ρ)) } :=
    ⟨hm.graph.addAll hbare, hm.blockAutomaton hm.refined blocks⟩
  have hmade := hunlinked.connectAll (blockEdges m.graph m.automaton m.refined blocks)
  rw [← hm.graph.blockNodes_eq, ← hm.blockEdges_eq hm.refined] at hmade
  exact ⟨hmade.graph, hm.blockAutomaton hm.refined blocks⟩

end Machine.Mirrors

end PatternAutomata
