/-
The order in which a search meets its items.

A search lists each key once (`nodup_layers`). If the steps from an item are listed in an
order, and steps from earlier items come before steps from later ones, then the whole
search is in that order (`Stepwise.pairwise_layers`), and what stands for the target of a
step is met no later than the step would lead to it (`Stepwise.exists_mem_layers`).

A search can carry along what does not matter for its keys, and meets the same items
(`map_layers`).
-/
import PatternAutomata.Search

set_option autoImplicit false

namespace PatternAutomata.Search

variable {α β κ : Type} [DecidableEq κ]

/-! ## Unseen items

Of the items with one key that was not seen, the first one is kept. -/

section Unseen

variable {key : α → κ} {seen : List κ}

/-- Items are left out and stay in their order. -/
theorem sublist_unseen (key : α → κ) (seen : List κ) (l : List α) :
    (unseen key seen l).Sublist l := by
  induction l generalizing seen with
  | nil => exact .slnil
  | cons a l ih =>
    rw [unseen]
    split
    · exact (ih seen).cons a
    · exact (ih _).cons_cons a

/-- No key is kept twice. -/
theorem nodup_unseen (key : α → κ) (seen : List κ) (l : List α) :
    ((unseen key seen l).map key).Nodup := by
  induction l generalizing seen with
  | nil => exact .nil
  | cons a l ih =>
    rw [unseen]
    split
    · exact ih seen
    · rw [List.map_cons, List.nodup_cons]
      refine ⟨?_, ih _⟩
      intro h
      obtain ⟨b, hb, heq⟩ := List.mem_map.1 h
      exact (mem_of_mem_unseen hb).2 (heq ▸ List.mem_cons_self)

/-- In an ordered list, the item that stands for a key is the first one with it. -/
theorem exists_unseen_le {R : α → α → Prop} {l : List α} (hl : l.Pairwise R) {a : α}
    (ha : a ∈ l) (hs : key a ∉ seen) :
    ∃ b ∈ unseen key seen l, key b = key a ∧ (b = a ∨ R b a) := by
  induction l generalizing seen with
  | nil => nomatch ha
  | cons c l ih =>
    obtain ⟨hc, hl'⟩ := List.pairwise_cons.1 hl
    rw [unseen]
    rcases List.mem_cons.1 ha with rfl | ha
    · rw [if_neg hs]
      exact ⟨a, List.mem_cons_self, rfl, Or.inl rfl⟩
    · split
      · exact ih hl' ha hs
      · -- the item that is met now may already stand for the key
        by_cases hca : key c = key a
        · exact ⟨c, List.mem_cons_self, hca, Or.inr (hc a ha)⟩
        · have hfresh : key a ∉ key c :: seen := fun h =>
            (List.mem_cons.1 h).elim (fun e => hca e.symm) hs
          obtain ⟨b, hb, heq, hba⟩ := ih hl' ha hfresh
          exact ⟨b, List.mem_cons_of_mem _ hb, heq, hba⟩

/-- Which items are kept depends on their keys only, so it does not matter what they carry along. -/
theorem map_unseen (f : β → α) (l : List β) :
    (unseen (key ∘ f) seen l).map f = unseen key seen (l.map f) := by
  induction l generalizing seen with
  | nil => rfl
  | cons b l ih =>
    rw [unseen, List.map_cons, unseen, Function.comp_apply]
    by_cases hb : key (f b) ∈ seen
    · rw [if_pos hb, if_pos hb, ih]
    · rw [if_neg hb, if_neg hb, List.map_cons, ih]

end Unseen

/-! ## Keys -/

section Keys

variable {key : α → κ} {next : α → List α}
  {finite : ∃ keys : List κ, ∀ a, ∀ b ∈ next a, key b ∈ keys}

/-- Beyond the first layer no key is met that was seen. -/
theorem mem_layersFrom {seen : List κ} {layer : List α} {a : α}
    (ha : a ∈ (layersFrom key next finite seen layer).flatten) :
    a ∈ layer ∨ key a ∉ seen := by
  fun_induction layersFrom key next finite seen layer with
  | case1 => exact absurd ha List.not_mem_nil
  | case2 seen b rest following ih =>
    rw [List.flatten_cons] at ha
    rcases List.mem_append.1 ha with ha | ha
    · exact Or.inl ha
    · rcases ih ha with ha | ha
      · exact Or.inr (mem_of_mem_unseen ha).2
      · exact Or.inr fun h => ha (List.mem_append_right _ h)

/-- If the first layer lists each key once and its keys count as seen, the search lists each key
once. By induction on the layers. -/
theorem nodup_layersFrom {seen : List κ} {layer : List α} (hlayer : (layer.map key).Nodup)
    (hseen : ∀ a ∈ layer, key a ∈ seen) :
    ((layersFrom key next finite seen layer).flatten.map key).Nodup := by
  fun_induction layersFrom key next finite seen layer with
  | case1 => exact .nil
  | case2 seen a rest following ih =>
    rw [List.flatten_cons, List.map_append, List.nodup_append]
    refine ⟨hlayer, ?_, ?_⟩
    · apply ih
      · exact nodup_unseen ..
      · exact fun b hb => List.mem_append_left _ (List.mem_map_of_mem hb)
    · -- what comes later has a key that was not seen, and the layer was seen
      intro k hk k' hk' heq
      obtain ⟨b, hb, rfl⟩ := List.mem_map.1 hk
      obtain ⟨c, hc, rfl⟩ := List.mem_map.1 hk'
      have hnew : key c ∉ seen := by
        rcases mem_layersFrom hc with hc | hc
        · exact (mem_of_mem_unseen hc).2
        · exact fun h => hc (List.mem_append_right _ h)
      rw [← heq] at hnew
      exact hnew (hseen b hb)

/-- A search lists each key once. So it is over when there are no more keys. -/
theorem nodup_layers {roots : List α} (hroots : (roots.map key).Nodup) :
    ((layers key next finite roots).flatten.map key).Nodup :=
  nodup_layersFrom hroots fun _ ha => List.mem_map_of_mem ha

end Keys

/-! ## What is carried along -/

/-- Layer by layer, what is carried along changes nothing about what is met. -/
theorem map_layersFrom {key : α → κ} {next : α → List α} {step : β → List β} {f : β → α}
    {finite : ∃ keys : List κ, ∀ a, ∀ b ∈ next a, key b ∈ keys}
    {finite' : ∃ keys : List κ, ∀ a, ∀ b ∈ step a, (key ∘ f) b ∈ keys}
    (hstep : ∀ b, (step b).map f = next (f b)) {seen : List κ} {layer : List β} :
    (layersFrom (key ∘ f) step finite' seen layer).flatten.map f =
      (layersFrom key next finite seen (layer.map f)).flatten := by
  fun_induction layersFrom (key ∘ f) step finite' seen layer with
  | case1 =>
    rw [List.map_nil, layersFrom]
    rfl
  | case2 seen b rest following ih =>
    have hnext : ((b :: rest).flatMap step).map f = ((b :: rest).map f).flatMap next := by
      rw [List.map_flatMap, List.flatMap_map]
      simp only [hstep]
    -- both searches see the same keys, so they skip the same items
    have hfollowing : following.map f = unseen key seen (((b :: rest).map f).flatMap next) := by
      rw [← hnext]
      exact map_unseen f _
    have hkeys : following.map (key ∘ f) = (following.map f).map key := by
      rw [List.map_map]
    rw [List.flatten_cons, List.map_append, ih, hkeys, hfollowing, List.map_cons, layersFrom,
      List.flatten_cons]

/-- A search that carries something along meets the same items. -/
theorem map_layers {key : α → κ} {next : α → List α} {step : β → List β} {f : β → α}
    {finite : ∃ keys : List κ, ∀ a, ∀ b ∈ next a, key b ∈ keys}
    {finite' : ∃ keys : List κ, ∀ a, ∀ b ∈ step a, (key ∘ f) b ∈ keys}
    (hstep : ∀ b, (step b).map f = next (f b)) (roots : List β) :
    (layers (key ∘ f) step finite' roots).flatten.map f =
      (layers key next finite (roots.map f)).flatten := by
  rw [layers, layers, map_layersFrom hstep, List.map_map]

/-! ## Order -/

/-- Steps go one level deeper and follow an order: what is less deep comes first, the steps
from one item are in order, and so are the steps from two items of one depth. -/
structure Stepwise (next : α → List α) (depth : α → Nat) (R : α → α → Prop) : Prop where
  deeper : ∀ a, ∀ b ∈ next a, depth b = depth a + 1
  shallow : ∀ a b, depth a < depth b → R a b
  siblings : ∀ a, (next a).Pairwise R
  cousins : ∀ a b, R a b → depth a = depth b → ∀ c ∈ next a, ∀ d ∈ next b, R c d

namespace Stepwise

variable {key : α → κ} {next : α → List α} {depth : α → Nat} {R : α → α → Prop}
  {finite : ∃ keys : List κ, ∀ a, ∀ b ∈ next a, key b ∈ keys}

omit [DecidableEq κ] in
/-- The steps from an ordered layer are listed in order. -/
theorem pairwise_flatMap (h : Stepwise next depth R) {layer : List α} (hlayer : layer.Pairwise R)
    {n : Nat} (hdepth : ∀ a ∈ layer, depth a = n) : (layer.flatMap next).Pairwise R := by
  induction layer with
  | nil => exact .nil
  | cons a layer ih =>
    obtain ⟨ha, hlayer'⟩ := List.pairwise_cons.1 hlayer
    have hdepth' : ∀ b ∈ layer, depth b = n := fun b hb => hdepth b (List.mem_cons_of_mem a hb)
    rw [List.flatMap_cons, List.pairwise_append]
    refine ⟨h.siblings a, ih hlayer' hdepth', ?_⟩
    intro c hc d hd
    obtain ⟨b, hb, hbd⟩ := List.mem_flatMap.1 hd
    have hsame : depth a = depth b := (hdepth a List.mem_cons_self).trans (hdepth' b hb).symm
    exact h.cousins a b (ha b hb) hsame c hc d hbd

omit [DecidableEq κ] in
/-- They are one level deeper. -/
theorem depth_flatMap (h : Stepwise next depth R) {layer : List α} {n : Nat}
    (hdepth : ∀ a ∈ layer, depth a = n) : ∀ b ∈ layer.flatMap next, depth b = n + 1 := by
  intro b hb
  obtain ⟨a, ha, hab⟩ := List.mem_flatMap.1 hb
  rw [h.deeper a b hab, hdepth a ha]

/-- Layers lie one below the other, so nothing later is less deep. -/
theorem le_depth (h : Stepwise next depth R) {seen : List κ} {layer : List α} {n : Nat}
    (hdepth : ∀ a ∈ layer, depth a = n) :
    ∀ a ∈ (layersFrom key next finite seen layer).flatten, n ≤ depth a := by
  apply forall_mem_layersFrom
  · intro a ha b hb
    rw [h.deeper a b hb]
    exact Nat.le_succ_of_le ha
  · exact fun a ha => Nat.le_of_eq (hdepth a ha).symm

/-- Each layer is in order, and comes before all that is deeper. By induction on the layers. -/
theorem pairwise_layersFrom (h : Stepwise next depth R) {seen : List κ} {layer : List α}
    (hlayer : layer.Pairwise R) {n : Nat} (hdepth : ∀ a ∈ layer, depth a = n) :
    (layersFrom key next finite seen layer).flatten.Pairwise R := by
  fun_induction layersFrom key next finite seen layer generalizing n with
  | case1 => exact .nil
  | case2 seen a rest following ih =>
    have hsub := sublist_unseen key seen ((a :: rest).flatMap next)
    have hdeeper : ∀ b ∈ following, depth b = n + 1 := fun b hb =>
      h.depth_flatMap hdepth b (hsub.subset hb)
    rw [List.flatten_cons, List.pairwise_append]
    refine ⟨hlayer, ih ((h.pairwise_flatMap hlayer hdepth).sublist hsub) hdeeper, ?_⟩
    intro b hb c hc
    apply h.shallow
    have hbn := hdepth b hb
    have hcn := h.le_depth hdeeper c hc
    omega

/-- A search meets its items in order. -/
theorem pairwise_layers (h : Stepwise next depth R) (root : α) :
    (layers key next finite [root]).flatten.Pairwise R :=
  h.pairwise_layersFrom (n := depth root) (List.pairwise_singleton ..)
    fun a ha => by rw [List.mem_singleton.1 ha]

/-- What a step leads to is met by a key that is not later, or was seen before. By induction on the
layers: the step is from the first layer, or from one further down. -/
theorem exists_mem_layersFrom (h : Stepwise next depth R) {seen : List κ} {layer : List α}
    (hlayer : layer.Pairwise R) {n : Nat} (hdepth : ∀ a ∈ layer, depth a = n) {a b : α}
    (ha : a ∈ (layersFrom key next finite seen layer).flatten) (hb : b ∈ next a) :
    key b ∈ seen ∨
      ∃ c ∈ (layersFrom key next finite seen layer).flatten,
        key c = key b ∧ (c = b ∨ R c b) := by
  fun_induction layersFrom key next finite seen layer generalizing n with
  | case1 => exact absurd ha List.not_mem_nil
  | case2 seen d rest following ih =>
    have hsub := sublist_unseen key seen ((d :: rest).flatMap next)
    have hdeeper : ∀ b ∈ following, depth b = n + 1 := fun b hb =>
      h.depth_flatMap hdepth b (hsub.subset hb)
    have hordered := h.pairwise_flatMap hlayer hdepth
    rw [List.flatten_cons] at ha ⊢
    -- a step to a key that was seen leads nowhere new
    by_cases hseen : key b ∈ seen
    · exact Or.inl hseen
    right
    rcases List.mem_append.1 ha with ha | ha
    · -- the step is in the next layer, with an item that is not later standing for it
      obtain ⟨c, hc, hcb⟩ :=
        exists_unseen_le hordered (List.mem_flatMap.2 ⟨a, ha, hb⟩) hseen
      exact ⟨c, List.mem_append_right _ (mem_flatten_layersFrom hc), hcb⟩
    · rcases ih (hordered.sublist hsub) hdeeper ha with hmem | ⟨c, hc, hcb⟩
      · rcases List.mem_append.1 hmem with hmem | hmem
        · -- the key was first met in the next layer, which is less deep than the step
          obtain ⟨c, hc, hcb⟩ := List.mem_map.1 hmem
          refine ⟨c, List.mem_append_right _ (mem_flatten_layersFrom hc), hcb,
            Or.inr (h.shallow c b ?_)⟩
          have hcn := hdeeper c hc
          have han := h.le_depth hdeeper a ha
          have hbn := h.deeper a b hb
          omega
        · exact absurd hmem hseen
      · exact ⟨c, List.mem_append_right _ hc, hcb⟩

/-- What stands for the target of a step is met no later than the step leads to it. -/
theorem exists_mem_layers (h : Stepwise next depth R) {root a b : α}
    (ha : a ∈ (layers key next finite [root]).flatten) (hb : b ∈ next a) :
    ∃ c ∈ (layers key next finite [root]).flatten, key c = key b ∧ (c = b ∨ R c b) := by
  have hlayer : ([root] : List α).Pairwise R := List.pairwise_singleton ..
  have hdepth : ∀ c ∈ [root], depth c = depth root := fun c hc => by
    rw [List.mem_singleton.1 hc]
  rcases h.exists_mem_layersFrom hlayer hdepth ha hb with hmem | hmem
  · rw [List.map_singleton, List.mem_singleton] at hmem
    refine ⟨root, mem_flatten_layersFrom List.mem_cons_self, hmem.symm, Or.inr ?_⟩
    have hroot_le := h.le_depth hdepth a ha
    have hbn := h.deeper a b hb
    exact h.shallow root b (by omega)
  · exact hmem

end Stepwise

end PatternAutomata.Search
