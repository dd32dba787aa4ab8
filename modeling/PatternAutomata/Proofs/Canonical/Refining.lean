/-
Refining a partition.

A pass of refinement splits some blocks (`Refines`). A split keeps a partition proper and makes
two blocks or more out of one, so the passes come to an end, and where they end no block can be
split (`refine_spec`).

What refinement keeps is said about one split and then carried to the whole run
(`Refines.preserves`). Blocks only ever get smaller (`Refines.sameBlock`), and states from which
the same steps can be taken are never parted (`Refines.keepsTogether`).
-/
import PatternAutomata.Proofs.Canonical.Numbering
import PatternAutomata.Proofs.Canonical.Partitions

set_option autoImplicit false

namespace PatternAutomata

namespace Partition

variable {g : Graph} {alphabet : List Label} {p q r : Partition} {S b : VertexSet}

/-! ## One split -/

/-- The partition with the parts of a block in its place. -/
def shatter (p : Partition) (g : Graph) (alphabet : List Label) (b : VertexSet) : Partition :=
  (p.drop b).addAll (p.parts g alphabet b)

/-- A block that has one part only is left as it is. -/
theorem split_eq_self (h : (p.parts g alphabet b).length < 2) : split g alphabet p b = p :=
  if_pos h

/-- A block that has several parts is replaced by them. -/
theorem split_eq_shatter (h : ¬(p.parts g alphabet b).length < 2) :
    split g alphabet p b = p.shatter g alphabet b :=
  if_neg h

/-- The parts of a block are disjoint and not empty and hold its members by their signatures. They
are groups by a label, which is where a member leads by each symbol. -/
theorem parts_spec (p : Partition) (g : Graph) (alphabet : List Label) (b : VertexSet) :
    (∀ c ∈ p.parts g alphabet b, ∃ v ∈ c, ∀ w, w ∈ c ↔
      w ∈ b ∧ p.signature g alphabet w = p.signature g alphabet v) ∧
      (∀ v ∈ b, ∃ c ∈ p.parts g alphabet b, v ∈ c) ∧
        (p.parts g alphabet b).Pairwise fun b c => ∀ v ∈ b, v ∉ c := by
  obtain ⟨hpart, hcover, hdisjoint⟩ := groups_spec (p.signature g alphabet) (g.inOrder b)
  simp only [Graph.mem_inOrder] at hpart hcover
  exact ⟨hpart, hcover, hdisjoint⟩

/-- Members of a part are members of the block with one signature. -/
theorem mem_part {c : VertexSet} (hc : c ∈ p.parts g alphabet b) {v : Vertex} (hv : v ∈ c)
    (w : Vertex) : w ∈ c ↔ w ∈ b ∧ p.signature g alphabet w = p.signature g alphabet v := by
  obtain ⟨u, _, hmem⟩ := (parts_spec p g alphabet b).1 c hc
  rw [hmem, ((hmem v).1 hv).2]

/-- If a block has one part only, its members have one signature. This is what is known in the end
of each block. -/
theorem signature_eq_of_length_lt (h : (p.parts g alphabet b).length < 2) {v w : Vertex}
    (hv : v ∈ b) (hw : w ∈ b) : p.signature g alphabet v = p.signature g alphabet w := by
  obtain ⟨c, hc, hvc⟩ := (parts_spec p g alphabet b).2.1 v hv
  obtain ⟨d, hd, hwd⟩ := (parts_spec p g alphabet b).2.1 w hw
  have hsame : c = d := by
    generalize p.parts g alphabet b = parts at h hc hd
    obtain _ | ⟨e, _ | ⟨e', rest⟩⟩ := parts
    · nomatch hc
    · rw [List.mem_singleton.1 hc, List.mem_singleton.1 hd]
    · rw [List.length_cons, List.length_cons] at h
      omega
  rw [← hsame] at hwd
  exact ((mem_part hc hwd v).1 hvc).2

/-- A partition stays proper when a block is split. The block is dropped with its states, and its
parts are added, which hold the same states. -/
theorem proper_shatter (hp : p.Proper S) (hb : b ∈ p.blocks) :
    (p.shatter g alphabet b).Proper S ∧
      (p.shatter g alphabet b).blocks = p.blocks.erase b ++ p.parts g alphabet b := by
  obtain ⟨hpart, hcover, hdisjoint⟩ := parts_spec p g alphabet b
  have hsub : ∀ c ∈ p.parts g alphabet b, ∀ v ∈ c, v ∈ b := fun c hc v hv =>
    ((mem_part hc hv v).1 hv).1
  -- the block is dropped and its parts are added instead
  obtain ⟨hproper, hblocks⟩ := (hp.drop hb).addAll
    (fun c hc => (hpart c hc).imp fun v hv => hv.1)
    (fun c hc v hv hmem => (OrdSet.mem_sdiff.1 hmem).2 (hsub c hc v hv)) hdisjoint
  have hset : (S \ b) ∪ .unions (p.parts g alphabet b) = S := by
    ext v
    rw [OrdSet.mem_union, OrdSet.mem_sdiff, OrdSet.mem_unions]
    constructor
    · rintro (⟨hv, _⟩ | ⟨c, hc, hv⟩)
      · exact hv
      · exact hp.mem_of_block hb (hsub c hc v hv)
    · intro hv
      by_cases hvb : v ∈ b
      · exact Or.inr (hcover v hvb)
      · exact Or.inl ⟨hv, hvb⟩
  rw [hset] at hproper
  exact ⟨hproper, hblocks⟩

/-- The other blocks stay, and the parts are new. -/
theorem mem_blocks_shatter (hp : p.Proper S) (hb : b ∈ p.blocks) {c : VertexSet} :
    c ∈ (p.shatter g alphabet b).blocks ↔
      (c ≠ b ∧ c ∈ p.blocks) ∨ c ∈ p.parts g alphabet b := by
  rw [(proper_shatter hp hb).2, List.mem_append, hp.nodup.mem_erase_iff]

/-- Two parts or more instead of one block make more blocks. -/
theorem length_lt_shatter (hp : p.Proper S) (hb : b ∈ p.blocks)
    (h : ¬(p.parts g alphabet b).length < 2) :
    p.blocks.length < (p.shatter g alphabet b).blocks.length := by
  have hpos : 0 < p.blocks.length := List.length_pos_of_mem hb
  rw [(proper_shatter hp hb).2, List.length_append, List.length_erase_of_mem hb]
  omega

/-! ## Runs of splits -/

/-- One partition comes from another one by splitting blocks. -/
inductive Refines (g : Graph) (alphabet : List Label) : Partition → Partition → Prop where
  | refl (p : Partition) : Refines g alphabet p p
  | split {p q : Partition} {b : VertexSet} (block : b ∈ p.blocks)
      (rest : Refines g alphabet (p.shatter g alphabet b) q) : Refines g alphabet p q

namespace Refines

/-- Splits can be made one after the other. -/
theorem trans (h : Refines g alphabet p q) (h' : Refines g alphabet q r) :
    Refines g alphabet p r := by
  induction h with
  | refl => exact h'
  | split block _ ih => exact .split block (ih h')

/-- What each split of a proper partition keeps, all of them together keep. By induction on the
splits; each one is of a proper partition, since splitting keeps it proper. -/
theorem preserves {I : Partition → Prop} (hp : p.Proper S) (h : Refines g alphabet p q)
    (hI : I p) (step : ∀ p b, p.Proper S → b ∈ p.blocks → I p → I (p.shatter g alphabet b)) :
    q.Proper S ∧ I q := by
  induction h with
  | refl => exact ⟨hp, hI⟩
  | split block _ ih => exact ih (proper_shatter hp block).1 (step _ _ hp block hI)

/-- So splitting ends with a proper partition. -/
theorem proper (h : Refines g alphabet p q) (hp : p.Proper S) : q.Proper S :=
  (preserves (I := fun _ => True) hp h trivial fun _ _ _ _ _ => trivial).1

/-- Blocks only get smaller: states that are in one block afterwards were in one block before. -/
theorem sameBlock (h : Refines g alphabet p q) (hp : p.Proper S) {v w : Vertex} (hv : v ∈ S)
    (heq : q.blockOf? v = q.blockOf? w) : p.blockOf? v = p.blockOf? w := by
  have hinvariant := preserves (I := fun q => q.blockOf? v = q.blockOf? w →
    p.blockOf? v = p.blockOf? w) hp h id ?_
  · exact hinvariant.2 heq
  intro q b hq hb hI heq
  apply hI
  obtain ⟨c, hc, hvc, hv_block⟩ := (proper_shatter hq hb).1.exists_block hv
  have hwc : w ∈ c := by
    rw [hv_block] at heq
    exact (((proper_shatter hq hb).1.blockOf?_iff w c).1 heq.symm).2
  rcases (mem_blocks_shatter hq hb).1 hc with ⟨_, hc⟩ | hc
  · rw [(hq.blockOf?_iff v c).2 ⟨hc, hvc⟩, (hq.blockOf?_iff w c).2 ⟨hc, hwc⟩]
  · have hvb := ((mem_part hc hvc v).1 hvc).1
    have hwb := ((mem_part hc hvc w).1 hwc).1
    rw [(hq.blockOf?_iff v b).2 ⟨hb, hvb⟩, (hq.blockOf?_iff w b).2 ⟨hb, hwb⟩]

/-- Each block lies in one of the blocks that were there before. -/
theorem exists_block (h : Refines g alphabet p q) (hp : p.Proper S) (hb : b ∈ q.blocks) :
    ∃ c ∈ p.blocks, ∀ v ∈ b, v ∈ c := by
  have hq := h.proper hp
  obtain ⟨v, hv⟩ := hq.inhabited b hb
  have hvS := hq.mem_of_block hb hv
  obtain ⟨c, hc, _, hv_block⟩ := hp.exists_block hvS
  refine ⟨c, hc, fun w hw => ?_⟩
  have hnew : q.blockOf? v = q.blockOf? w := by
    rw [(hq.blockOf?_iff v b).2 ⟨hb, hv⟩, (hq.blockOf?_iff w b).2 ⟨hb, hw⟩]
  have hold := h.sameBlock hp hvS hnew
  rw [hv_block] at hold
  exact ((hp.blockOf?_iff w c).1 hold.symm).2

end Refines

/-! ## States that are not parted -/

/-- States that are related can take the same steps to states that are related again. -/
structure Bisimulation (g : Graph) (S : VertexSet) (R : Vertex → Vertex → Prop) : Prop where
  symm : ∀ v w, R v w → R w v
  step : ∀ v ∈ S, ∀ w ∈ S, R v w → ∀ l, ∀ u ∈ g.destinations v l,
    ∃ x ∈ g.destinations w l, R u x
  target_mem : ∀ v ∈ S, ∀ l, ∀ u ∈ g.destinations v l, u ∈ S

/-- Related states are in one block. -/
def Together (p : Partition) (S : VertexSet) (R : Vertex → Vertex → Prop) : Prop :=
  ∀ v ∈ S, ∀ w ∈ S, R v w → p.blockOf? v = p.blockOf? w

variable {R : Vertex → Vertex → Prop}

/-- The one state that a symbol leads to, if it leads anywhere. -/
theorem head?_destinations (hd : g.Deterministic S) {v u : Vertex} {l : Label} (hv : v ∈ S)
    (hu : u ∈ g.destinations v l) : (g.destinations v l).toList.head? = some u := by
  have hunique := hd.unique v hv l
  have hu' : u ∈ (g.destinations v l).toList := hu
  cases hlist : (g.destinations v l).toList with
  | nil =>
    rw [hlist] at hu'
    nomatch hu'
  | cons w rest =>
    have hw : w ∈ g.destinations v l := by
      rw [← OrdSet.mem_toList, hlist]
      exact List.mem_cons_self
    rw [List.head?_cons, hunique w hw u hu]

/-- Where a symbol leads nowhere, there is no first target. -/
theorem head?_destinations_eq_none {v : Vertex} {l : Label} (h : ∀ u, u ∉ g.destinations v l) :
    (g.destinations v l).toList.head? = none := by
  rw [List.head?_eq_none_iff]
  exact List.eq_nil_iff_forall_not_mem.2 h

/-- Related states have the same signature if related states are in one block. A symbol leads both
of them on or neither, and to related states, which are in one block. -/
theorem signature_eq (hd : g.Deterministic S) (hR : Bisimulation g S R) (hp : p.Together S R)
    {v w : Vertex} (hv : v ∈ S) (hw : w ∈ S) (hvw : R v w) :
    p.signature g alphabet v = p.signature g alphabet w := by
  refine List.map_congr_left fun l _ => ?_
  by_cases hsome : ∃ u, u ∈ g.destinations v l
  · obtain ⟨u, hu⟩ := hsome
    obtain ⟨x, hx, hux⟩ := hR.step v hv w hw hvw l u hu
    rw [head?_destinations hd hv hu, head?_destinations hd hw hx]
    exact hp u (hR.target_mem v hv l u hu) x (hR.target_mem w hw l x hx) hux
  · have hnone : ∀ x, x ∉ g.destinations w l := by
      intro x hx
      obtain ⟨u, hu, _⟩ := hR.step w hw v hv (hR.symm v w hvw) l x hx
      exact hsome ⟨u, hu⟩
    rw [head?_destinations_eq_none (not_exists.1 hsome), head?_destinations_eq_none hnone]

/-- A split does not part related states, since it goes by signatures and these are the same. -/
theorem together_shatter (hd : g.Deterministic S) (hR : Bisimulation g S R) (hp : p.Proper S)
    (hb : b ∈ p.blocks) (h : p.Together S R) : (p.shatter g alphabet b).Together S R := by
  intro v hv w hw hvw
  have hproper : (p.shatter g alphabet b).Proper S := (proper_shatter hp hb).1
  obtain ⟨c, hc, hvc, hv_block⟩ := hproper.exists_block hv
  have hold := h v hv w hw hvw
  rw [hv_block]
  symm
  rw [hproper.blockOf?_iff]
  refine ⟨hc, ?_⟩
  rcases (mem_blocks_shatter hp hb).1 hc with ⟨_, hc⟩ | hc
  · rw [(hp.blockOf?_iff v c).2 ⟨hc, hvc⟩] at hold
    exact ((hp.blockOf?_iff w c).1 hold.symm).2
  · have hvb := ((mem_part hc hvc v).1 hvc).1
    rw [(hp.blockOf?_iff v b).2 ⟨hb, hvb⟩] at hold
    have hwb := ((hp.blockOf?_iff w b).1 hold.symm).2
    exact (mem_part hc hvc w).2 ⟨hwb, (signature_eq hd hR h hv hw hvw).symm⟩

/-- Refinement never parts related states. -/
theorem Refines.keepsTogether (hd : g.Deterministic S) (hR : Bisimulation g S R)
    (hp : p.Proper S) (h : Refines g alphabet p q) (hpR : p.Together S R) : q.Together S R :=
  (h.preserves hp hpR fun _ _ hp hb h => together_shatter hd hR hp hb h).2

/-! ## Passes -/

/-- No block can be split. -/
def Stable (p : Partition) (g : Graph) (alphabet : List Label) : Prop :=
  ∀ b ∈ p.blocks, (p.parts g alphabet b).length < 2

/-- Splitting some blocks in turn changes nothing or makes more blocks. If it changes nothing, none
of the blocks could be split. The signatures are those of the partition at the time, so what was
split before may make a later block fall apart, but never brings parts together. -/
theorem foldl_split_spec (hp : p.Proper S) {bs : List VertexSet} (hnodup : bs.Nodup)
    (hbs : ∀ b ∈ bs, b ∈ p.blocks) :
    Refines g alphabet p (bs.foldl (split g alphabet) p) ∧
      ((bs.foldl (split g alphabet) p = p ∧ ∀ b ∈ bs, (p.parts g alphabet b).length < 2) ∨
        p.blocks.length < (bs.foldl (split g alphabet) p).blocks.length) := by
  induction bs generalizing p with
  | nil => exact ⟨.refl p, Or.inl ⟨rfl, nofun⟩⟩
  | cons b bs ih =>
    obtain ⟨hb_new, hnodup⟩ := List.nodup_cons.1 hnodup
    have hb := hbs b List.mem_cons_self
    rw [List.foldl_cons]
    by_cases hsplit : (p.parts g alphabet b).length < 2
    · rw [split_eq_self hsplit]
      obtain ⟨hrefines, hcases⟩ := ih hp hnodup fun c hc => hbs c (List.mem_cons_of_mem b hc)
      refine ⟨hrefines, hcases.imp_left ?_⟩
      rintro ⟨heq, hall⟩
      refine ⟨heq, fun c hc => ?_⟩
      rcases List.mem_cons.1 hc with rfl | hc
      · exact hsplit
      · exact hall c hc
    · rw [split_eq_shatter hsplit]
      -- the blocks that come later are still there
      have hlater : ∀ c ∈ bs, c ∈ (p.shatter g alphabet b).blocks := fun c hc =>
        (mem_blocks_shatter hp hb).2
          (Or.inl ⟨fun h => hb_new (h ▸ hc), hbs c (List.mem_cons_of_mem b hc)⟩)
      obtain ⟨hrefines, hcases⟩ := ih (proper_shatter hp hb).1 hnodup hlater
      have hmore := length_lt_shatter hp hb hsplit
      refine ⟨.split hb hrefines, Or.inr ?_⟩
      rcases hcases with ⟨heq, _⟩ | hlt
      · rw [heq]
        exact hmore
      · exact Nat.lt_trans hmore hlt

/-- A pass changes nothing, and then no block can be split, or makes more blocks. -/
theorem pass_spec (g : Graph) (alphabet : List Label) (hp : p.Proper S) :
    Refines g alphabet p (p.pass g alphabet) ∧
      ((p.pass g alphabet = p ∧ p.Stable g alphabet) ∨
        p.blocks.length < (p.pass g alphabet).blocks.length) :=
  foldl_split_spec hp hp.nodup fun _ hb => hb

/-- A pass leaves less slack exactly if it makes more blocks. -/
theorem slack_pass_lt_iff (g : Graph) (alphabet : List Label) (hp : p.Proper S) :
    (p.pass g alphabet).slack < p.slack ↔
      p.blocks.length < (p.pass g alphabet).blocks.length := by
  have hbefore := hp.slack_add_length
  have hafter := ((pass_spec g alphabet hp).1.proper hp).slack_add_length
  omega

/-- Passes that go on while there is less slack each time end where no block can be split. -/
theorem refineFrom_spec (hp : p.Proper S) (counts : List Nat) :
    Refines g alphabet p (p.refineFrom g alphabet counts).1 ∧
      (p.refineFrom g alphabet counts).1.Stable g alphabet := by
  -- a pass that goes on leaves less slack
  induction hn : p.slack using Nat.strongRecOn generalizing p counts with
  | _ n ih =>
    obtain ⟨hpass, hcases⟩ := pass_spec g alphabet hp
    rw [refineFrom]
    by_cases hslack : (p.pass g alphabet).slack < p.slack
    · simp only [if_pos hslack]
      obtain ⟨hrefines, hstable⟩ := ih _ (hn ▸ hslack) (hpass.proper hp)
        (counts ++ [(p.pass g alphabet).blocks.length]) rfl
      exact ⟨hpass.trans hrefines, hstable⟩
    · simp only [if_neg hslack]
      rcases hcases with ⟨heq, hstable⟩ | hmore
      · rw [heq]
        exact ⟨.refl p, hstable⟩
      · exact absurd ((slack_pass_lt_iff g alphabet hp).2 hmore) hslack

/-- Refinement ends where no block can be split. -/
theorem refine_spec (g : Graph) (alphabet : List Label) (hp : p.Proper S) :
    Refines g alphabet p (p.refine g alphabet).1 ∧
      (p.refine g alphabet).1.Stable g alphabet :=
  refineFrom_spec hp []

/-- In a stable partition, states of one block lead into the same blocks. They have one signature,
which says for each symbol which block it leads to. -/
theorem Stable.step (h : p.Stable g alphabet) (hp : p.Proper S) (hd : g.Deterministic S)
    (hclosed : ∀ v ∈ S, ∀ l, ∀ u ∈ g.destinations v l, u ∈ S) (hb : b ∈ p.blocks)
    {v w u : Vertex} (hv : v ∈ b) (hw : w ∈ b) {l : Label} (hl : l ∈ alphabet)
    (hu : u ∈ g.destinations v l) :
    ∃ x ∈ g.destinations w l, p.blockOf? x = p.blockOf? u := by
  have hvS := hp.mem_of_block hb hv
  have hwS := hp.mem_of_block hb hw
  have hsignature := signature_eq_of_length_lt (h b hb) hv hw
  have hstep := List.map_inj_left.1 hsignature l hl
  obtain ⟨c, _, _, hu_block⟩ := hp.exists_block (hclosed v hvS l u hu)
  rw [head?_destinations hd hvS hu, Option.bind_some, hu_block] at hstep
  by_cases hsome : ∃ x, x ∈ g.destinations w l
  · obtain ⟨x, hx⟩ := hsome
    rw [head?_destinations hd hwS hx, Option.bind_some] at hstep
    exact ⟨x, hx, hstep.symm.trans hu_block.symm⟩
  · rw [head?_destinations_eq_none (not_exists.1 hsome)] at hstep
    nomatch hstep

end Partition

end PatternAutomata
