/-
Proper partitions.

A partition is proper if its blocks are disjoint and not empty, together hold the states that
are partitioned, and each state is noted with its block. Blocks of other states can be added to
a proper partition and blocks can be dropped from it, and labelled states are partitioned
properly by their labels (`proper_ofLabels`).
-/
import PatternAutomata.Partition
import PatternAutomata.Proofs.Structure.Sound

set_option autoImplicit false

namespace PatternAutomata

namespace Partition

variable {p : Partition} {S b c : VertexSet}

/-! ## Proper partitions -/

/-- Blocks that are disjoint and not empty and hold some states, each noted with its block. -/
structure Proper (p : Partition) (S : VertexSet) : Prop where
  nodup : p.blocks.Nodup
  inhabited : ∀ b ∈ p.blocks, ∃ v, v ∈ b
  blockOf?_iff : ∀ v b, p.blockOf? v = some b ↔ b ∈ p.blocks ∧ v ∈ b
  cover : ∀ v, v ∈ S ↔ ∃ b ∈ p.blocks, v ∈ b

namespace Proper

/-- Each state is in a block, and that is the block it is noted with. -/
theorem exists_block (hp : p.Proper S) {v : Vertex} (hv : v ∈ S) :
    ∃ b ∈ p.blocks, v ∈ b ∧ p.blockOf? v = some b := by
  obtain ⟨b, hb, hvb⟩ := (hp.cover v).1 hv
  exact ⟨b, hb, hvb, (hp.blockOf?_iff v b).2 ⟨hb, hvb⟩⟩

/-- Blocks hold states of the set only. -/
theorem mem_of_block (hp : p.Proper S) (hb : b ∈ p.blocks) {v : Vertex} (hv : v ∈ b) : v ∈ S :=
  (hp.cover v).2 ⟨b, hb, hv⟩

/-- Blocks with a common state are equal, since the state is noted with one block only. -/
theorem eq_of_mem (hp : p.Proper S) (hb : b ∈ p.blocks) (hc : c ∈ p.blocks) {v : Vertex}
    (hvb : v ∈ b) (hvc : v ∈ c) : b = c := by
  have hblock := (hp.blockOf?_iff v b).2 ⟨hb, hvb⟩
  rw [(hp.blockOf?_iff v c).2 ⟨hc, hvc⟩, Option.some.injEq] at hblock
  exact hblock.symm

end Proper

/-! ## Adding and dropping blocks -/

/-- Noting states with a block changes what is noted of these, and of no others. -/
theorem getElem?_foldl_insert {o : Std.TreeMap Vertex VertexSet} {vs : List Vertex} {v : Vertex} :
    (vs.foldl (fun o v => o.insert v b) o)[v]? = if v ∈ vs then some b else o[v]? := by
  induction vs generalizing o with
  | nil => rfl
  | cons w vs ih =>
    rw [List.foldl_cons, ih, Std.TreeMap.getElem?_insert]
    by_cases hv : v ∈ vs
    · rw [if_pos hv, if_pos (List.mem_cons_of_mem w hv)]
    · rw [if_neg hv]
      by_cases hw : w = v
      · rw [if_pos (Nat.compare_eq_eq.2 hw), if_pos (hw ▸ List.mem_cons_self)]
      · rw [if_neg fun h => hw (Nat.compare_eq_eq.1 h), if_neg]
        rintro hmem
        rcases List.mem_cons.1 hmem with h | h
        · exact hw h.symm
        · exact hv h

/-- Erasing states takes away what is noted of these, and of no others. -/
theorem getElem?_foldl_erase {o : Std.TreeMap Vertex VertexSet} {vs : List Vertex} {v : Vertex} :
    (vs.foldl (fun o v => o.erase v) o)[v]? = if v ∈ vs then none else o[v]? := by
  induction vs generalizing o with
  | nil => rfl
  | cons w vs ih =>
    rw [List.foldl_cons, ih, Std.TreeMap.getElem?_erase]
    by_cases hv : v ∈ vs
    · rw [if_pos hv, if_pos (List.mem_cons_of_mem w hv)]
    · rw [if_neg hv]
      by_cases hw : w = v
      · rw [if_pos (Nat.compare_eq_eq.2 hw), if_pos (hw ▸ List.mem_cons_self)]
      · rw [if_neg fun h => hw (Nat.compare_eq_eq.1 h), if_neg]
        rintro hmem
        rcases List.mem_cons.1 hmem with h | h
        · exact hw h.symm
        · exact hv h

/-- An added block is found for its members. -/
theorem blockOf?_add {v : Vertex} :
    (p.add b).blockOf? v = if v ∈ b then some b else p.blockOf? v :=
  getElem?_foldl_insert

/-- After a block is dropped nothing is found for its members. -/
theorem blockOf?_drop {v : Vertex} :
    (p.drop b).blockOf? v = if v ∈ b then none else p.blockOf? v :=
  getElem?_foldl_erase

/-- Without states there are no blocks. -/
theorem proper_empty : (∅ : Partition).Proper ∅ where
  nodup := .nil
  inhabited b hb := nomatch hb
  blockOf?_iff v b := by
    have hnone : (∅ : Partition).blockOf? v = none := Std.TreeMap.getElem?_emptyc
    rw [hnone]
    exact iff_of_false nofun fun h => nomatch h.1
  cover v := iff_of_false (OrdSet.not_mem_empty v) fun ⟨b, hb, _⟩ => nomatch hb

namespace Proper

/-- A block of other states is not there yet. -/
theorem not_mem_blocks (hp : p.Proper S) (hb : ∃ v, v ∈ b) (hdisjoint : ∀ v ∈ b, v ∉ S) :
    b ∉ p.blocks := by
  intro hmem
  obtain ⟨v, hv⟩ := hb
  exact hdisjoint v hv (hp.mem_of_block hmem hv)

/-- So it is put behind the others. -/
theorem blocks_add (hp : p.Proper S) (hb : ∃ v, v ∈ b) (hdisjoint : ∀ v ∈ b, v ∉ S) :
    (p.add b).blocks = p.blocks ++ [b] :=
  if_neg (hp.not_mem_blocks hb hdisjoint)

/-- A block of other states can be added. It has to hold some state, and none that is
partitioned. -/
theorem add (hp : p.Proper S) (hb : ∃ v, v ∈ b) (hdisjoint : ∀ v ∈ b, v ∉ S) :
    (p.add b).Proper (S ∪ b) := by
  have hblocks := hp.blocks_add hb hdisjoint
  have hmem : ∀ c, c ∈ (p.add b).blocks ↔ c ∈ p.blocks ∨ c = b := by
    intro c
    rw [hblocks, List.mem_append, List.mem_singleton]
  constructor
  · rw [hblocks, List.nodup_append]
    refine ⟨hp.nodup, List.nodup_cons.2 ⟨List.not_mem_nil, .nil⟩, ?_⟩
    rintro c hc d hd rfl
    rw [List.mem_singleton.1 hd] at hc
    exact hp.not_mem_blocks hb hdisjoint hc
  · intro c hc
    rcases (hmem c).1 hc with hc | rfl
    · exact hp.inhabited c hc
    · exact hb
  · intro v c
    rw [blockOf?_add, hmem]
    -- states of the new block are looked up in it, and all others as before
    by_cases hv : v ∈ b
    · rw [if_pos hv, Option.some.injEq]
      constructor
      · rintro rfl
        exact ⟨Or.inr rfl, hv⟩
      · rintro ⟨hc | rfl, hvc⟩
        · exact absurd (hp.mem_of_block hc hvc) (hdisjoint v hv)
        · rfl
    · rw [if_neg hv, hp.blockOf?_iff]
      constructor
      · rintro ⟨hc, hvc⟩
        exact ⟨Or.inl hc, hvc⟩
      · rintro ⟨hc | rfl, hvc⟩
        · exact ⟨hc, hvc⟩
        · exact absurd hvc hv
  · intro v
    rw [OrdSet.mem_union, hp.cover]
    constructor
    · rintro (⟨c, hc, hvc⟩ | hv)
      · exact ⟨c, (hmem c).2 (Or.inl hc), hvc⟩
      · exact ⟨b, (hmem b).2 (Or.inr rfl), hv⟩
    · rintro ⟨c, hc, hvc⟩
      rcases (hmem c).1 hc with hc | rfl
      · exact Or.inl ⟨c, hc, hvc⟩
      · exact Or.inr hvc

/-- A block can be dropped with its states, which are then no longer partitioned. -/
theorem drop (hp : p.Proper S) (hb : b ∈ p.blocks) : (p.drop b).Proper (S \ b) := by
  have hmem : ∀ c, c ∈ (p.drop b).blocks ↔ c ≠ b ∧ c ∈ p.blocks := fun c =>
    hp.nodup.mem_erase_iff
  constructor
  · exact hp.nodup.erase b
  · exact fun c hc => hp.inhabited c ((hmem c).1 hc).2
  · intro v c
    rw [blockOf?_drop, hmem]
    -- the states of the dropped block are in no other one
    by_cases hv : v ∈ b
    · rw [if_pos hv]
      refine iff_of_false nofun ?_
      rintro ⟨⟨hne, hc⟩, hvc⟩
      exact hne (hp.eq_of_mem hc hb hvc hv)
    · rw [if_neg hv, hp.blockOf?_iff]
      constructor
      · rintro ⟨hc, hvc⟩
        exact ⟨⟨fun h => hv (h ▸ hvc), hc⟩, hvc⟩
      · rintro ⟨⟨_, hc⟩, hvc⟩
        exact ⟨hc, hvc⟩
  · intro v
    rw [OrdSet.mem_sdiff, hp.cover]
    constructor
    · rintro ⟨⟨c, hc, hvc⟩, hv⟩
      exact ⟨c, (hmem c).2 ⟨fun h => hv (h ▸ hvc), hc⟩, hvc⟩
    · rintro ⟨c, hc, hvc⟩
      obtain ⟨hne, hc⟩ := (hmem c).1 hc
      exact ⟨⟨c, hc, hvc⟩, fun hv => hne (hp.eq_of_mem hc hb hvc hv)⟩

/-- Several blocks of other states can be added one after the other, if they are disjoint. By
induction on the list of blocks. -/
theorem addAll (hp : p.Proper S) {bs : List VertexSet} (hbs : ∀ b ∈ bs, ∃ v, v ∈ b)
    (hdisjoint : ∀ b ∈ bs, ∀ v ∈ b, v ∉ S)
    (hpairwise : bs.Pairwise fun b c => ∀ v ∈ b, v ∉ c) :
    (p.addAll bs).Proper (S ∪ .unions bs) ∧ (p.addAll bs).blocks = p.blocks ++ bs := by
  induction bs generalizing p S with
  | nil =>
    have hset : S ∪ .unions [] = S := by
      ext v
      rw [OrdSet.mem_union]
      exact or_iff_left (OrdSet.not_mem_empty v)
    rw [hset, List.append_nil]
    exact ⟨hp, rfl⟩
  | cons b bs ih =>
    obtain ⟨hb, hpairwise⟩ := List.pairwise_cons.1 hpairwise
    have hb_some := hbs b List.mem_cons_self
    have hb_apart := hdisjoint b List.mem_cons_self
    -- what was added first counts as old for the blocks to come
    have hrest : ∀ c ∈ bs, ∀ v ∈ c, v ∉ S ∪ b := by
      intro c hc v hv hmem
      rcases OrdSet.mem_union.1 hmem with hmem | hmem
      · exact hdisjoint c (List.mem_cons_of_mem b hc) v hv hmem
      · exact hb c hc v hmem hv
    obtain ⟨hproper, hblocks⟩ := ih (hp.add hb_some hb_apart)
      (fun c hc => hbs c (List.mem_cons_of_mem b hc)) hrest hpairwise
    have hset : S ∪ .unions (b :: bs) = S ∪ b ∪ .unions bs := by
      ext v
      simp only [OrdSet.mem_union, OrdSet.mem_unions, List.exists_mem_cons_iff, or_assoc]
    rw [hset]
    refine ⟨hproper, ?_⟩
    show ((p.add b).addAll bs).blocks = _
    rw [hblocks, hp.blocks_add hb_some hb_apart, List.append_assoc]
    rfl

/-- The slack that blocks add up to, and their number, are the number of their states. Each block
has one state more than it has slack, since it is not empty. -/
theorem foldl_slack_add_length {bs : List VertexSet} (hbs : ∀ b ∈ bs, ∃ v, v ∈ b) (n : Nat) :
    bs.foldl (fun n b => n + (b.size - 1)) n + bs.length =
      n + (bs.flatMap OrdSet.toList).length := by
  induction bs generalizing n with
  | nil => rfl
  | cons b bs ih =>
    -- a block that is not empty has one state that is no slack
    obtain ⟨v, hv⟩ := hbs b List.mem_cons_self
    have hpos : 0 < b.toList.length := List.length_pos_of_mem hv
    have hrest := ih (fun c hc => hbs c (List.mem_cons_of_mem b hc)) (n + (b.size - 1))
    rw [List.foldl_cons, List.length_cons, List.flatMap_cons, List.length_append]
    rw [OrdSet.size] at hrest ⊢
    omega

/-- A proper partition has as many states more than blocks as it has slack. So its slack is less
after a pass exactly if it has more blocks. -/
theorem slack_add_length (hp : p.Proper S) : p.slack + p.blocks.length = S.size := by
  have hnodup : (p.blocks.flatMap OrdSet.toList).Nodup := by
    rw [List.nodup_flatMap]
    refine ⟨fun b _ => b.nodup_toList, hp.nodup.imp_of_mem ?_⟩
    intro b c hb hc hne v hvb hvc
    exact hne (hp.eq_of_mem hb hc hvb hvc)
  -- the blocks list each state once
  have hperm : (p.blocks.flatMap OrdSet.toList).Perm S.toList := by
    rw [List.perm_ext_iff_of_nodup hnodup S.nodup_toList]
    intro v
    rw [List.mem_flatMap]
    exact (hp.cover v).symm
  have hsum := foldl_slack_add_length hp.inhabited 0
  rw [Nat.zero_add, hperm.length_eq] at hsum
  exact hsum

end Proper

/-! ## Groups -/

section Grouping

variable {κ : Type} [DecidableEq κ] {f : Vertex → κ} {vs : List Vertex}
  {gs : List (κ × VertexSet)}

/-- The groups of some states by a label: one group for each label that occurs. -/
structure GroupedBy (f : Vertex → κ) (vs : List Vertex) (gs : List (κ × VertexSet)) : Prop where
  nodup : (gs.map Prod.fst).Nodup
  mem_iff : ∀ e ∈ gs, ∀ w, w ∈ e.2 ↔ w ∈ vs ∧ f w = e.1
  inhabited : ∀ e ∈ gs, ∃ w, w ∈ e.2
  exists_group : ∀ w ∈ vs, ∃ e ∈ gs, e.1 = f w

/-- Adding a state to the group of its label brings no other new label. -/
theorem mem_keys_addToGroup {k i : κ} {v : Vertex} :
    i ∈ (addToGroup k v gs).map Prod.fst ↔ i ∈ gs.map Prod.fst ∨ i = k := by
  induction gs with
  | nil => simp [addToGroup]
  | cons e gs ih =>
    obtain ⟨j, vs⟩ := e
    rw [addToGroup]
    split
    · next h =>
      rw [List.map_cons, List.map_cons, List.mem_cons, h]
      exact ⟨Or.inl, fun h => h.elim id Or.inl⟩
    · rw [List.map_cons, List.map_cons, List.mem_cons, List.mem_cons, ih, or_assoc]

/-- No label gets a second group. -/
theorem nodup_addToGroup {k : κ} {v : Vertex} (h : (gs.map Prod.fst).Nodup) :
    ((addToGroup k v gs).map Prod.fst).Nodup := by
  induction gs with
  | nil => exact List.nodup_cons.2 ⟨List.not_mem_nil, .nil⟩
  | cons e gs ih =>
    obtain ⟨j, vs⟩ := e
    rw [List.map_cons, List.nodup_cons] at h
    rw [addToGroup]
    split
    · rwa [List.map_cons, List.nodup_cons]
    · next hne =>
      rw [List.map_cons, List.nodup_cons, mem_keys_addToGroup]
      refine ⟨?_, ih h.2⟩
      rintro (hj | hj)
      · exact h.1 hj
      · exact hne hj

/-- A group after a state was added: an old one with another label, or one with its label
that holds the state too. -/
theorem mem_addToGroup {k : κ} {v : Vertex} (h : (gs.map Prod.fst).Nodup) {e : κ × VertexSet}
    (he : e ∈ addToGroup k v gs) : e ∈ gs ∧ e.1 ≠ k ∨
      e.1 = k ∧ (e.2 = {v} ∧ k ∉ gs.map Prod.fst ∨ ∃ vs, (k, vs) ∈ gs ∧ e.2 = vs.insert v) := by
  induction gs with
  | nil =>
    rw [addToGroup, List.mem_singleton] at he
    subst he
    exact Or.inr ⟨rfl, Or.inl ⟨rfl, List.not_mem_nil⟩⟩
  | cons d gs ih =>
    obtain ⟨j, vs⟩ := d
    rw [List.map_cons, List.nodup_cons] at h
    rw [addToGroup] at he
    split at he
    · next hj =>
      rcases List.mem_cons.1 he with rfl | he
      · exact Or.inr ⟨hj, Or.inr ⟨vs, hj ▸ List.mem_cons_self, rfl⟩⟩
      · refine Or.inl ⟨List.mem_cons_of_mem _ he, ?_⟩
        -- labels of groups differ, so no later group has the label that was found
        intro hk
        have hmem : e.1 ∈ gs.map Prod.fst := List.mem_map_of_mem he
        rw [hk, ← hj] at hmem
        exact h.1 hmem
    · next hj =>
      rcases List.mem_cons.1 he with rfl | he
      · exact Or.inl ⟨List.mem_cons_self, hj⟩
      · rcases ih h.2 he with ⟨he, hne⟩ | ⟨hk, ⟨hset, hnew⟩ | ⟨us, hus, hset⟩⟩
        · exact Or.inl ⟨List.mem_cons_of_mem _ he, hne⟩
        · refine Or.inr ⟨hk, Or.inl ⟨hset, ?_⟩⟩
          rw [List.map_cons, List.mem_cons, not_or]
          exact ⟨fun h => hj h.symm, hnew⟩
        · exact Or.inr ⟨hk, Or.inr ⟨us, List.mem_cons_of_mem _ hus, hset⟩⟩

/-- One state more is grouped rightly with the others. It joins the group of its label, or makes a
new one if there was none, and all other groups stay as they are. -/
theorem GroupedBy.addToGroup (h : GroupedBy f vs gs) (v : Vertex) :
    GroupedBy f (vs ++ [v]) (addToGroup (f v) v gs) where
  nodup := nodup_addToGroup h.nodup
  mem_iff e he w := by
    rw [List.mem_append, List.mem_singleton, or_and_right]
    -- a group that stays, one that is new, or the one that the state joins
    rcases mem_addToGroup h.nodup he with ⟨he, hne⟩ | ⟨hk, ⟨hset, hnew⟩ | ⟨us, hus, hset⟩⟩
    · rw [h.mem_iff e he]
      refine (or_iff_left ?_).symm
      rintro ⟨rfl, hw⟩
      exact hne hw.symm
    · rw [hset, hk, OrdSet.mem_singleton]
      constructor
      · rintro rfl
        exact Or.inr ⟨rfl, rfl⟩
      · rintro (⟨hw, hfw⟩ | ⟨rfl, _⟩)
        · -- a state with the new label would have had a group before
          obtain ⟨d, hd, hdw⟩ := h.exists_group w hw
          exact absurd (hdw.trans hfw ▸ List.mem_map_of_mem hd) hnew
        · rfl
    · rw [hset, hk, OrdSet.mem_insert, h.mem_iff _ hus]
      constructor
      · rintro (rfl | hw)
        · exact Or.inr ⟨rfl, rfl⟩
        · exact Or.inl hw
      · rintro (hw | ⟨rfl, _⟩)
        · exact Or.inr hw
        · exact Or.inl rfl
  inhabited e he := by
    rcases mem_addToGroup h.nodup he with ⟨he, _⟩ | ⟨_, ⟨hset, _⟩ | ⟨us, _, hset⟩⟩
    · exact h.inhabited e he
    · rw [hset]
      exact ⟨v, OrdSet.mem_singleton.2 rfl⟩
    · rw [hset]
      exact ⟨v, OrdSet.mem_insert.2 (Or.inl rfl)⟩
  exists_group w hw := by
    have hkey : f w ∈ (Partition.addToGroup (f v) v gs).map Prod.fst := by
      rw [mem_keys_addToGroup]
      rcases List.mem_append.1 hw with hw | hw
      · obtain ⟨e, he, hew⟩ := h.exists_group w hw
        exact Or.inl (hew ▸ List.mem_map_of_mem he)
      · rw [List.mem_singleton.1 hw]
        exact Or.inr rfl
    obtain ⟨e, he, hew⟩ := List.mem_map.1 hkey
    exact ⟨e, he, hew⟩

/-- So states that are added one after the other are grouped rightly, by induction on their list. -/
theorem groupedBy_foldl (f : Vertex → κ) {us : List Vertex} (h : GroupedBy f us gs)
    (vs : List Vertex) : GroupedBy f (us ++ vs)
      ((vs.map fun v => (f v, v)).foldl (fun gs e => addToGroup e.1 e.2 gs) gs) := by
  induction vs generalizing us gs with
  | nil => rwa [List.append_nil]
  | cons v vs ih =>
    rw [List.map_cons, List.foldl_cons]
    have hrest := ih (h.addToGroup v)
    rwa [List.append_assoc] at hrest

/-- The groups of labelled states are disjoint and not empty; each holds the states with one label,
and each state is in one. Nothing is said here about the order of the groups. -/
theorem groups_spec (f : Vertex → κ) (vs : List Vertex) :
    (∀ b ∈ groups (vs.map fun v => (f v, v)), ∃ v ∈ b, ∀ w, w ∈ b ↔ w ∈ vs ∧ f w = f v) ∧
      (∀ v ∈ vs, ∃ b ∈ groups (vs.map fun v => (f v, v)), v ∈ b) ∧
        (groups (vs.map fun v => (f v, v))).Pairwise fun b c => ∀ v ∈ b, v ∉ c := by
  -- the groups are made one state after the other, starting from none
  have hempty : GroupedBy f [] [] := ⟨.nil, nofun, nofun, nofun⟩
  have hgroups := groupedBy_foldl f hempty vs
  rw [List.nil_append] at hgroups
  rw [groups]
  generalize (vs.map fun v => (f v, v)).foldl (fun gs e => addToGroup e.1 e.2 gs) [] = gs
    at hgroups
  refine ⟨?_, ?_, ?_⟩
  · intro b hb
    obtain ⟨e, he, rfl⟩ := List.mem_map.1 hb
    obtain ⟨v, hv⟩ := hgroups.inhabited e he
    refine ⟨v, hv, fun w => ?_⟩
    rw [hgroups.mem_iff e he, ((hgroups.mem_iff e he v).1 hv).2]
  · intro v hv
    obtain ⟨e, he, hev⟩ := hgroups.exists_group v hv
    exact ⟨e.2, List.mem_map_of_mem he, (hgroups.mem_iff e he v).2 ⟨hv, hev.symm⟩⟩
  · rw [List.pairwise_map]
    refine (List.pairwise_map.1 hgroups.nodup).imp_of_mem fun {d e} hd he hne v hvd hve => ?_
    exact hne (((hgroups.mem_iff d hd v).1 hvd).2.symm.trans ((hgroups.mem_iff e he v).1 hve).2)

/-- Labelled states are partitioned by their labels. The groups are blocks that can be added to no
blocks at all, and two states share a block if they have the same label. -/
theorem proper_ofLabels (f : Vertex → κ) {vs : List Vertex} (hvs : ∀ v, v ∈ vs ↔ v ∈ S) :
    (ofLabels (vs.map fun v => (f v, v))).Proper S ∧ ∀ v ∈ S, ∀ w ∈ S,
      (ofLabels (vs.map fun v => (f v, v))).blockOf? v =
        (ofLabels (vs.map fun v => (f v, v))).blockOf? w ↔ f v = f w := by
  obtain ⟨hgroup, hcover, hdisjoint⟩ := groups_spec f vs
  obtain ⟨hproper, hblocks⟩ := proper_empty.addAll
    (fun b hb => (hgroup b hb).imp fun v hv => hv.1) (fun _ _ v _ => OrdSet.not_mem_empty v)
    hdisjoint
  -- the groups cover all states and hold nothing else
  have hset : ∅ ∪ .unions (groups (vs.map fun v => (f v, v))) = S := by
    ext v
    rw [OrdSet.mem_union, OrdSet.mem_unions, ← hvs]
    constructor
    · rintro (hv | ⟨b, hb, hv⟩)
      · exact absurd hv (OrdSet.not_mem_empty v)
      · obtain ⟨u, _, hmem⟩ := hgroup b hb
        exact ((hmem v).1 hv).1
    · exact fun hv => Or.inr (hcover v hv)
  rw [hset] at hproper
  rw [ofLabels]
  refine ⟨hproper, fun v hv w hw => ?_⟩
  obtain ⟨b, hb, hvb, hv_block⟩ := hproper.exists_block hv
  have hb' : b ∈ groups (vs.map fun v => (f v, v)) := by
    rw [hblocks] at hb
    exact hb
  obtain ⟨u, _, hmem⟩ := hgroup b hb'
  have hfv := ((hmem v).1 hvb).2
  rw [hv_block, eq_comm, hproper.blockOf?_iff]
  constructor
  · rintro ⟨_, hwb⟩
    rw [hfv, ((hmem w).1 hwb).2]
  · intro heq
    exact ⟨hb, (hmem w).2 ⟨(hvs w).2 hw, heq.symm.trans hfv⟩⟩

end Grouping

end Partition

end PatternAutomata
