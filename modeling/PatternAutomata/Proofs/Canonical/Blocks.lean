/-
The blocks that states are merged into.

Sorted by their least identifiers, the blocks of a stable partition say which states become
one: `Blocking` lists what is used of them. The partition that minimizing ends with has all of
it (`blocking_refined`), and never parts states from which the same steps can be taken.
-/
import PatternAutomata.Automaton.Quotient
import PatternAutomata.Proofs.Canonical.Refining
import PatternAutomata.Proofs.Structure.Joining

set_option autoImplicit false

namespace PatternAutomata

open PatternAutomata.Graph

/-! ## Least identifiers -/

namespace Machine

variable {g : Graph} {a : Automaton} {p : Partition}

/-- The least identifier in a block is that of a member. So blocks with a common least identifier
have a common member. -/
theorem exists_leastId {b : VertexSet} (hb : ∃ v, v ∈ b) :
    ∃ v ∈ b, (g.node v).id = leastId g b ∧ ∀ w ∈ b, leastId g b ≤ (g.node w).id := by
  obtain ⟨v, hv⟩ := hb
  have hsorted := pairwise_sortById (g := g) b.toList
  have hmem : ∀ w, w ∈ g.sortById b.toList ↔ w ∈ b := fun w => mem_sortById
  rw [leastId, ids, inOrder]
  generalize g.sortById b.toList = listed at hsorted hmem
  cases listed with
  | nil => exact absurd ((hmem v).2 hv) List.not_mem_nil
  | cons u rest =>
    refine ⟨u, (hmem u).1 List.mem_cons_self, rfl, ?_⟩
    intro w hw
    rcases List.mem_cons.1 ((hmem w).2 hw) with rfl | hw
    · exact Int.le_refl _
    · exact (List.pairwise_cons.1 hsorted).1 w hw

/-- The blocks are sorted, and none is added or left out. -/
theorem mem_blocksInOrder {b : VertexSet} : b ∈ blocksInOrder g p ↔ b ∈ p.blocks :=
  List.mem_mergeSort

/-- Different blocks have different least identifiers, so they are listed in strict order. The least
identifier is that of a member, and no two states have the same one. -/
theorem pairwise_blocksInOrder (ha : a.WellFormed g) (hp : p.Proper a.states) :
    (blocksInOrder g p).Pairwise fun b c => leastId g b < leastId g c := by
  have hsorted : (blocksInOrder g p).Pairwise fun b c : VertexSet =>
      decide (leastId g b ≤ leastId g c) = true := List.pairwise_mergeSort
    (fun b c d hbc hcd => by simp only [decide_eq_true_eq] at *; omega)
    (fun b c => by simp only [Bool.or_eq_true, decide_eq_true_eq]; omega) p.blocks
  have hnodup : (blocksInOrder g p).Nodup := (List.mergeSort_perm ..).nodup_iff.2 hp.nodup
  refine (hsorted.and hnodup).imp_of_mem ?_
  rintro b c hb hc ⟨hle, hne⟩
  have hb' := mem_blocksInOrder.1 hb
  have hc' := mem_blocksInOrder.1 hc
  obtain ⟨v, hv, hv_id, _⟩ := exists_leastId (g := g) (hp.inhabited b hb')
  obtain ⟨w, hw, hw_id, _⟩ := exists_leastId (g := g) (hp.inhabited c hc')
  refine Int.lt_iff_le_and_ne.2 ⟨of_decide_eq_true hle, fun heq => ?_⟩
  have hvw : v = w := ha.id_injective v (hp.mem_of_block hb' hv) w (hp.mem_of_block hc' hw)
    (hv_id.trans (heq.trans hw_id.symm))
  exact hne (hp.eq_of_mem hb' hc' hv (hvw ▸ hw))

end Machine

/-! ## Blockings -/

/-- Blocks by which the states of an automaton can be merged: each state is in one of them, they
are listed by their least identifiers, and the states of one block accept alike and lead into
the same blocks. -/
structure Blocking (g : Graph) (a : Automaton) (blocks : List VertexSet) : Prop where
  cover : ∀ v, v ∈ a.states ↔ ∃ i, ∃ h : i < blocks.length, v ∈ blocks[i]
  inhabited : ∀ b ∈ blocks, ∃ v, v ∈ b
  unique : ∀ i (hi : i < blocks.length) j (hj : j < blocks.length), ∀ v ∈ blocks[i],
    v ∈ blocks[j] → i = j
  ordered : blocks.Pairwise fun b c => Machine.leastId g b < Machine.leastId g c
  isAccepting_eq : ∀ b ∈ blocks, ∀ v ∈ b, ∀ w ∈ b,
    (g.node v).isAccepting = (g.node w).isAccepting
  step : ∀ b ∈ blocks, ∀ v ∈ b, ∀ w ∈ b, ∀ l, ∀ u ∈ g.destinations v l,
    ∃ x ∈ g.destinations w l, ∀ c ∈ blocks, u ∈ c → x ∈ c

namespace Machine

variable {m : Machine}

/-- The partition that refining begins with is proper, and tells accepting states from the
others. -/
theorem proper_acceptancePartition : m.acceptancePartition.Proper m.automaton.states ∧
    ∀ v ∈ m.automaton.states, ∀ w ∈ m.automaton.states,
      m.acceptancePartition.blockOf? v = m.acceptancePartition.blockOf? w ↔
        (m.graph.node v).isAccepting = (m.graph.node w).isAccepting :=
  Partition.proper_ofLabels (fun v => (m.graph.node v).isAccepting) fun _ => m.graph.mem_inOrder

/-- The partition that minimizing ends with. -/
def refined (m : Machine) : Partition :=
  (m.acceptancePartition.refine m.graph m.automaton.alphabet.toList).1

/-- Each pass keeps a partition proper, so the last one is. -/
theorem proper_refined : m.refined.Proper m.automaton.states :=
  (Partition.refine_spec _ _ proper_acceptancePartition.1).1.proper proper_acceptancePartition.1

/-- The blocks that minimizing ends with are such that states can be merged by them. That members
accept alike is so from the beginning, as blocks only get smaller; that they lead into the same
blocks is what it means that no block can be split any more. -/
theorem blocking_refined (hm : m.automaton.WellFormed m.graph)
    (hlabel : ∀ v ∈ m.automaton.states, ∀ l, ∀ w ∈ m.graph.destinations v l, l ≠ .epsilon →
      l ∈ m.automaton.alphabet)
    (hd : m.graph.Deterministic m.automaton.states) :
    Blocking m.graph m.automaton (blocksInOrder m.graph m.refined) := by
  obtain ⟨hstart, haccept⟩ := proper_acceptancePartition (m := m)
  obtain ⟨hrefines, hstable⟩ := Partition.refine_spec m.graph
    m.automaton.alphabet.toList hstart
  have hp : m.refined.Proper m.automaton.states := proper_refined
  have hordered := pairwise_blocksInOrder hm hp
  -- sorting the blocks neither adds nor repeats any
  have hnodup : (blocksInOrder m.graph m.refined).Nodup :=
    (List.mergeSort_perm ..).nodup_iff.2 hp.nodup
  have hblock : ∀ i (hi : i < (blocksInOrder m.graph m.refined).length),
      (blocksInOrder m.graph m.refined)[i] ∈ m.refined.blocks := fun i hi =>
    mem_blocksInOrder.1 (List.getElem_mem hi)
  refine ⟨?_, ?_, ?_, hordered, ?_, ?_⟩
  · intro v
    rw [hp.cover]
    constructor
    · rintro ⟨b, hb, hv⟩
      obtain ⟨i, hi, rfl⟩ := List.getElem_of_mem ((mem_blocksInOrder (g := m.graph)).2 hb)
      exact ⟨i, hi, hv⟩
    · rintro ⟨i, hi, hv⟩
      exact ⟨_, hblock i hi, hv⟩
  · exact fun b hb => hp.inhabited b (mem_blocksInOrder.1 hb)
  · intro i hi j hj v hvi hvj
    exact hnodup.getElem_inj_iff.1 (hp.eq_of_mem (hblock i hi) (hblock j hj) hvi hvj)
  · intro b hb v hv w hw
    have hb' := mem_blocksInOrder.1 hb
    have hv_mem := hp.mem_of_block hb' hv
    -- refining never puts states together that the first partition told apart
    rw [← haccept v hv_mem w (hp.mem_of_block hb' hw)]
    apply hrefines.sameBlock hstart hv_mem
    have hv_block : m.refined.blockOf? v = some b := (hp.blockOf?_iff v b).2 ⟨hb', hv⟩
    have hw_block : m.refined.blockOf? w = some b := (hp.blockOf?_iff w b).2 ⟨hb', hw⟩
    exact hv_block.trans hw_block.symm
  · intro b hb v hv w hw l u hu
    have hb' := mem_blocksInOrder.1 hb
    have hv_mem := hp.mem_of_block hb' hv
    have hl := hd.ne_epsilon hv_mem hu
    -- the partition is stable, so the other member has a step into the same block
    obtain ⟨x, hx, hblock⟩ := hstable.step hp hd hm.target_mem hb' hv hw
      (hlabel v hv_mem l u hu hl) hu
    refine ⟨x, hx, fun c hc huc => ?_⟩
    have hc' := mem_blocksInOrder.1 hc
    have hu_block : m.refined.blockOf? u = some c := (hp.blockOf?_iff u c).2 ⟨hc', huc⟩
    exact ((hp.blockOf?_iff x c).1 (hblock.trans hu_block)).2

/-- States that accept alike and from which the same steps can be taken stay in one block: no split
ever tells them apart. So the blocks are no smaller than they have to be. -/
theorem mem_block_of_related (hd : m.graph.Deterministic m.automaton.states)
    {R : Vertex → Vertex → Prop}
    (hR : Partition.Bisimulation m.graph m.automaton.states R)
    (haccept : ∀ v w, R v w → (m.graph.node v).isAccepting = (m.graph.node w).isAccepting)
    {b : VertexSet} (hb : b ∈ blocksInOrder m.graph m.refined) {v w : Vertex} (hv : v ∈ b)
    (hw : w ∈ m.automaton.states) (hvw : R v w) : w ∈ b := by
  obtain ⟨hstart, hlabel⟩ := proper_acceptancePartition (m := m)
  obtain ⟨hrefines, _⟩ := Partition.refine_spec m.graph
    m.automaton.alphabet.toList hstart
  have hp : m.refined.Proper m.automaton.states := proper_refined
  have htogether := hrefines.keepsTogether hd hR hstart fun v hv w hw hvw =>
    (hlabel v hv w hw).2 (haccept v w hvw)
  have hb' := mem_blocksInOrder.1 hb
  have hsame : m.refined.blockOf? v = m.refined.blockOf? w :=
    htogether v (hp.mem_of_block hb' hv) w hw hvw
  rw [(hp.blockOf?_iff v b).2 ⟨hb', hv⟩] at hsame
  exact ((hp.blockOf?_iff w b).1 hsame.symm).2

end Machine

end PatternAutomata
