/-
The passes of refinement.

Minimizing refines its first partition pass by pass until a pass changes nothing. A pass looks at
the blocks that it began with, one after the other, and what it has split already counts when it
looks at the next one. After each of these steps (`Machine.withinPass`) the partition is proper,
and states with the same runs are in one block, so a pass cannot part them either by the blocks
that it began with or by those that it has made.

A pass that does not end the refinement makes more blocks, and there are never more blocks than
states, so there are at most as many passes as states (`Partition.refineFrom_eq`,
`Edit.minimize_progress`).
-/
import Mathlib
import PatternAutomata.Proofs.Canonical.Completing

set_option autoImplicit false

namespace PatternAutomata

open PatternAutomata.Graph

/-! ## Passes one by one -/

namespace Partition

variable {g : Graph} {alphabet : List Label} {p : Partition} {S : VertexSet}

/-- The partition after a number of passes. -/
def afterPasses (p : Partition) (g : Graph) (alphabet : List Label) (n : Nat) : Partition :=
  (fun q => q.pass g alphabet)^[n] p

/-- The partition within the pass that follows a number of passes, when some of the blocks that it
began with have been looked at. -/
def withinPass (p : Partition) (g : Graph) (alphabet : List Label) (n i : Nat) : Partition :=
  ((p.afterPasses g alphabet n).blocks.take i).foldl (split g alphabet)
    (p.afterPasses g alphabet n)

/-- One pass more is made at the end. -/
theorem afterPasses_succ (n : Nat) :
    p.afterPasses g alphabet (n + 1) = (p.afterPasses g alphabet n).pass g alphabet :=
  Function.iterate_succ_apply' ..

/-- A pass begins with what the passes before it have left. -/
theorem withinPass_zero (n : Nat) : p.withinPass g alphabet n 0 = p.afterPasses g alphabet n :=
  rfl

/-- When all blocks have been looked at, the pass is over. -/
theorem withinPass_length (n : Nat) :
    p.withinPass g alphabet n (p.afterPasses g alphabet n).blocks.length =
      p.afterPasses g alphabet (n + 1) := by
  rw [withinPass, List.take_length, afterPasses_succ, pass]

/-- Passes only split blocks. -/
theorem refines_afterPasses (hp : p.Proper S) (n : Nat) :
    Refines g alphabet p (p.afterPasses g alphabet n) := by
  induction n with
  | zero => exact .refl p
  | succ n ih =>
    rw [afterPasses_succ]
    exact ih.trans (pass_spec g alphabet (ih.proper hp)).1

/-- Each step of a pass only splits blocks. -/
theorem refines_withinPass (hp : p.Proper S) (n i : Nat) :
    Refines g alphabet p (p.withinPass g alphabet n i) := by
  have hpasses : Refines g alphabet p (p.afterPasses g alphabet n) := refines_afterPasses hp n
  have hproper := hpasses.proper hp
  have hnodup := hproper.nodup.sublist (List.take_sublist i _)
  exact hpasses.trans (foldl_split_spec hproper hnodup fun _ hb => List.mem_of_mem_take hb).1

/-- Refinement is a number of passes. Each but the last makes more blocks, and the last one changes
nothing. By induction on the passes, which end when there is no less slack than before. -/
theorem refineFrom_eq (g : Graph) (alphabet : List Label) (hp : p.Proper S) (counts : List Nat) :
    ∃ k, p.refineFrom g alphabet counts = (p.afterPasses g alphabet (k + 1), counts ++
        (List.range (k + 1)).map fun n => (p.afterPasses g alphabet (n + 1)).blocks.length) ∧
      (∀ n < k, (p.afterPasses g alphabet n).blocks.length <
        (p.afterPasses g alphabet (n + 1)).blocks.length) ∧
        p.afterPasses g alphabet (k + 1) = p.afterPasses g alphabet k := by
  -- the induction is on the slack that is left, as the loop is
  fun_induction refineFrom p g alphabet counts with
  | case1 p counts q counts' hslack ih =>
    obtain ⟨k, heq, hmore, hlast⟩ := ih ((pass_spec g alphabet hp).1.proper hp)
    refine ⟨k + 1, ?_, ?_, hlast⟩
    · rw [heq, List.range_succ_eq_map (n := k + 1), List.map_cons, List.map_map, List.append_cons]
      rfl
    · rintro (_ | n) hn
      · exact (slack_pass_lt_iff g alphabet hp).1 hslack
      · exact hmore n (Nat.lt_of_succ_lt_succ hn)
  | case2 p counts q counts' hslack =>
    refine ⟨0, rfl, nofun, ?_⟩
    obtain ⟨heq, _⟩ | hmore := (pass_spec g alphabet hp).2
    · exact heq
    · exact absurd ((slack_pass_lt_iff g alphabet hp).2 hmore) hslack

/-- As long as each pass makes more blocks, there is one more at least for each pass. -/
theorem add_le_length_afterPasses {k : Nat} (hmore : ∀ n < k,
    (p.afterPasses g alphabet n).blocks.length <
      (p.afterPasses g alphabet (n + 1)).blocks.length) :
    p.blocks.length + k ≤ (p.afterPasses g alphabet k).blocks.length := by
  induction k with
  | zero => exact Nat.le_refl _
  | succ k ih =>
    have hbefore := ih fun n hn => hmore n (Nat.lt_succ_of_lt hn)
    have hlast := hmore k (Nat.lt_succ_self k)
    omega

end Partition

/-! ## The edit -/

namespace Machine

variable {m : Machine}

/-- The partition of the states after a number of passes. -/
def afterPasses (m : Machine) (n : Nat) : Partition :=
  m.acceptancePartition.afterPasses m.graph m.automaton.alphabet.toList n

/-- The partition of the states within the pass that follows a number of passes, when some of the
blocks that it began with have been looked at. -/
def withinPass (m : Machine) (n i : Nat) : Partition :=
  m.acceptancePartition.withinPass m.graph m.automaton.alphabet.toList n i

/-- The states of a machine are partitioned in a number of passes, no more than there are states.
Each pass makes more blocks, but for the last one, which changes nothing. All along, also within a
pass, the blocks are not empty, are disjoint and hold the states of the machine, each state is
noted with its block, and states with the same runs are in one block. Each pass puts every block
into a block that was there before. -/
structure Progress (m : Machine) (k : Nat) : Prop where
  le_size : k ≤ m.automaton.states.size
  refine_eq : m.acceptancePartition.refine m.graph m.automaton.alphabet.toList =
    (m.afterPasses k, (List.range k).map fun n => (m.afterPasses (n + 1)).blocks.length)
  length_lt : ∀ n, n + 1 < k →
    (m.afterPasses n).blocks.length < (m.afterPasses (n + 1)).blocks.length
  eq_of_last : ∀ n, n + 1 = k → m.afterPasses (n + 1) = m.afterPasses n
  withinPass_zero : ∀ n, m.withinPass n 0 = m.afterPasses n
  withinPass_length : ∀ n,
    m.withinPass n (m.afterPasses n).blocks.length = m.afterPasses (n + 1)
  inhabited : ∀ n i, ∀ b ∈ (m.withinPass n i).blocks, ∃ v, v ∈ b
  disjoint : ∀ n i, (m.withinPass n i).blocks.Pairwise fun b c => ∀ v ∈ b, v ∉ c
  cover : ∀ n i v, v ∈ m.automaton.states ↔ ∃ b ∈ (m.withinPass n i).blocks, v ∈ b
  blockOf?_iff : ∀ n i v b,
    (m.withinPass n i).blockOf? v = some b ↔ b ∈ (m.withinPass n i).blocks ∧ v ∈ b
  exists_block : ∀ n, ∀ b ∈ (m.afterPasses (n + 1)).blocks,
    ∃ c ∈ (m.afterPasses n).blocks, ∀ v ∈ b, v ∈ c
  sameBlock_of_sameRuns : ∀ n i, ∀ v ∈ m.automaton.states, ∀ w ∈ m.automaton.states,
    m.graph.SameRuns v w → (m.withinPass n i).blockOf? v = (m.withinPass n i).blockOf? w

/-- Splitting keeps a partition proper, also in the middle of a pass. -/
theorem proper_withinPass (n i : Nat) : (m.withinPass n i).Proper m.automaton.states :=
  (Partition.refines_withinPass proper_acceptancePartition.1 n i).proper
    proper_acceptancePartition.1

/-- So it is proper after each pass. -/
theorem proper_afterPasses (n : Nat) : (m.afterPasses n).Proper m.automaton.states :=
  proper_withinPass n 0

/-- Refinement takes no more passes than there are states. It begins with one block at least, each
pass but the last makes one more, and there are no more blocks than states. -/
theorem exists_passes (hstart : m.automaton.start ∈ m.automaton.states) :
    ∃ k < m.automaton.states.size,
      m.acceptancePartition.refine m.graph m.automaton.alphabet.toList = (m.afterPasses (k + 1),
        (List.range (k + 1)).map fun n => (m.afterPasses (n + 1)).blocks.length) ∧
        (∀ n < k, (m.afterPasses n).blocks.length < (m.afterPasses (n + 1)).blocks.length) ∧
          m.afterPasses (k + 1) = m.afterPasses k := by
  have hfirst := (proper_acceptancePartition (m := m)).1
  obtain ⟨k, heq, hmore, hlast⟩ :=
    Partition.refineFrom_eq m.graph m.automaton.alphabet.toList hfirst []
  refine ⟨k, ?_, heq, hmore, hlast⟩
  -- the first partition has one block at least, and each pass but the last adds one
  obtain ⟨b, hb, _⟩ := (hfirst.cover _).1 hstart
  have hpos : 0 < m.acceptancePartition.blocks.length := List.length_pos_of_mem hb
  have hgrown := Partition.add_le_length_afterPasses hmore
  have hsize : (m.afterPasses k).slack + (m.afterPasses k).blocks.length =
      m.automaton.states.size := (proper_afterPasses k).slack_add_length
  rw [afterPasses] at hsize
  omega

/-- States with the same runs are never parted, neither by a pass as a whole nor halfway through
it. -/
theorem together_withinPass (hm : m.automaton.withoutSilent.Labelled m.graph)
    (hd : m.graph.Deterministic m.automaton.states) (n i : Nat) {v w : Vertex}
    (hv : v ∈ m.automaton.states) (hw : w ∈ m.automaton.states) (hsame : m.graph.SameRuns v w) :
    (m.withinPass n i).blockOf? v = (m.withinPass n i).blockOf? w := by
  obtain ⟨hfirst, haccept⟩ := proper_acceptancePartition (m := m)
  have hrefines : Partition.Refines m.graph m.automaton.alphabet.toList m.acceptancePartition
      (m.withinPass n i) := Partition.refines_withinPass hfirst n i
  have hbisimulation := Partition.bisimulation_sameRuns (a := m.automaton.withoutSilent) hm hd
  have htogether := hrefines.keepsTogether hd hbisimulation hfirst
    fun v hv w hw hvw => (haccept v hv w hw).2 hvw.2.2.isAccepting_eq
  exact htogether v hv w hw ⟨hv, hw, hsame⟩

/-- Refinement makes the progress that is stated, in some number of passes. -/
theorem exists_progress (hm : m.automaton.withoutSilent.Labelled m.graph)
    (hd : m.graph.Deterministic m.automaton.states) : ∃ k, m.Progress k := by
  obtain ⟨k, hlt, heq, hmore, hlast⟩ := exists_passes (m := m) hm.start_mem
  refine ⟨k + 1, ?_⟩
  constructor
  · exact hlt
  · exact heq
  · exact fun n hn => hmore n (Nat.lt_of_succ_lt_succ hn)
  · intro n hn
    obtain rfl : n = k := Nat.succ.inj hn
    exact hlast
  · exact Partition.withinPass_zero
  · exact Partition.withinPass_length
  · exact fun n i => (proper_withinPass n i).inhabited
  · intro n i
    have hp := proper_withinPass (m := m) n i
    refine hp.nodup.imp_of_mem ?_
    intro b c hb hc hne v hvb hvc
    exact hne (hp.eq_of_mem hb hc hvb hvc)
  · exact fun n i => (proper_withinPass n i).cover
  · exact fun n i => (proper_withinPass n i).blockOf?_iff
  · intro n b hb
    have hp := proper_afterPasses (m := m) n
    rw [afterPasses, Partition.afterPasses_succ] at hb
    exact (Partition.pass_spec _ _ hp).1.exists_block hp hb
  · exact fun n i v hv w hw hsame => together_withinPass hm hd n i hv hw hsame

end Machine

namespace Edit

/-- What minimizing notes is the number of blocks after each pass, and at last the number of the
passes. -/
theorem log_minimize {m m' : Machine} {d : Automaton} {k : Nat} (hk : m.Progress k)
    (hdet : m.automaton.isDeterministic m.graph = true) (hlive : m.automaton.discarded = false)
    (hrun : Edit.minimize m = .ok d m') : m'.log.toList = m.log.toList ++
      ((List.range k).map fun n => .refined (n + 1) (m.afterPasses (n + 1)).blocks.length) ++
        [.minimized m.automaton.states.size d.states.size k] := by
  obtain ⟨n, _, ⟨f, hfail, _⟩ | ⟨d', hmade, hquotient⟩⟩ := minimize_cases m
  · rw [hrun] at hfail
    cases hfail
  rw [hrun] at hmade
  cases hmade
  have hend := (minimize_eq_ok hlive hdet hquotient).symm.trans hrun
  rw [hk.refine_eq, EStateM.Result.ok.injEq] at hend
  -- the counts are noted with their places, which are the numbers of the passes
  have hnotes : (((List.range k).map fun n => (m.afterPasses (n + 1)).blocks.length).zipIdx.map
      fun e => Event.refined (e.2 + 1) e.1) =
        (List.range k).map fun n => .refined (n + 1) (m.afterPasses (n + 1)).blocks.length := by
    apply List.ext_getElem
    · simp only [List.length_map, List.length_zipIdx]
    · intro i _ _
      simp only [List.getElem_map, List.getElem_zipIdx, List.getElem_range, Nat.zero_add]
  rw [← hend.2, ← hnotes, ← Machine.log_notePasses]
  refine Array.toList_push.trans ?_
  rw [List.length_map, List.length_range]

/-- The refinement of a deterministic automaton makes progress, and minimizing goes through its
passes and notes them. What is noted is the number of blocks after each pass, and at last how many
passes there were. -/
theorem minimize_progress {m : Machine} (hcheck : m.automaton.violation? m.graph = none)
    (hdet : m.automaton.isDeterministic m.graph = true)
    (hlabel : ∀ v ∈ m.automaton.states, ∀ l, ∀ w ∈ m.graph.destinations v l,
      l ∈ m.automaton.alphabet) :
    ∃ k, m.Progress k ∧ (m.automaton.discarded = false →
      ∃ d m', Edit.minimize m = .ok d m' ∧ m'.log.toList = m.log.toList ++
        ((List.range k).map fun n => .refined (n + 1) (m.afterPasses (n + 1)).blocks.length) ++
          [.minimized m.automaton.states.size d.states.size k]) := by
  have hwf := Automaton.violation?_eq_none_iff.1 hcheck
  have hm := Automaton.labelled_withoutSilent hwf hlabel
  have hd := hwf.isDeterministic_iff.1 hdet
  obtain ⟨k, hk⟩ := Machine.exists_progress hm hd
  refine ⟨k, hk, fun hlive => ?_⟩
  obtain ⟨d, m', hrun, _⟩ := minimize_withoutSilent hm hd hlive
  exact ⟨d, m', hrun, log_minimize hk hdet hlive hrun⟩

/-- The first state and the last one accept alike, and are parted in the first of two passes. -/
theorem minimize_progress_twoSteps :
    twoSteps.automaton.violation? twoSteps.graph = none ∧
      twoSteps.automaton.isDeterministic twoSteps.graph = true ∧
        (∀ v ∈ twoSteps.automaton.states, ∀ l, ∀ w ∈ twoSteps.graph.destinations v l,
          l ∈ twoSteps.automaton.alphabet) ∧ twoSteps.automaton.discarded = false ∧
            twoSteps.Progress 2 ∧ ∃ d m', Edit.minimize twoSteps = .ok d m' ∧
              m'.log.toList = twoSteps.log.toList ++
                ((List.range 2).map fun n =>
                  .refined (n + 1) (twoSteps.afterPasses (n + 1)).blocks.length) ++
                [.minimized twoSteps.automaton.states.size d.states.size 2] := by
  have hwf := sound_twoSteps.wellFormed
  have hcheck := Automaton.violation?_eq_none_iff.2 hwf
  have hdet : twoSteps.automaton.isDeterministic twoSteps.graph = true := by decide
  have hlabel : ∀ v ∈ twoSteps.automaton.states, ∀ l, ∀ w ∈ twoSteps.graph.destinations v l,
      l ∈ twoSteps.automaton.alphabet := fun v hv l w hw =>
    sound_twoSteps.label_mem v hv l w hw ((hwf.isDeterministic_iff.1 hdet).ne_epsilon hv hw)
  have hcounts : (twoSteps.acceptancePartition.refine twoSteps.graph
      twoSteps.automaton.alphabet.toList).2 = [3, 3] := by cbv
  obtain ⟨k, hk, hrun⟩ := minimize_progress hcheck hdet hlabel
  have htwo : k = 2 := by
    rw [hk.refine_eq] at hcounts
    have hlength := congrArg List.length hcounts
    rwa [List.length_map, List.length_range] at hlength
  rw [htwo] at hk hrun
  exact ⟨hcheck, hdet, hlabel, rfl, hk, hrun rfl⟩

end Edit

end PatternAutomata
