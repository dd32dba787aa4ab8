/-
Breadth-first search.

The search goes from some roots to what they lead to, layer by layer. Items are told
apart by a key, so two items with the same key count as one, and the first of them that
is met stands for both. The search ends because only finitely many keys can be met; a
caller shows this once (`finite`), and no bound has to be counted out while it runs.

Everything that is explored in this library is explored here: what a state can reach,
what can reach it, what it reaches without reading, and the sets of states that a word
can lead to.
-/

set_option autoImplicit false

namespace PatternAutomata.Search

variable {α κ : Type} [DecidableEq κ]

/-- The items whose keys are not among those seen, each key once. -/
def unseen (key : α → κ) (seen : List κ) : List α → List α
  | [] => []
  | a :: rest =>
    if key a ∈ seen then unseen key seen rest else a :: unseen key (key a :: seen) rest

/-- What is kept as unseen stood in the list and has a key that was not seen. Keys that are met on
the way are added to those seen, which only makes the second part stronger. -/
theorem mem_of_mem_unseen {key : α → κ} {seen : List κ} {l : List α} {a : α}
    (h : a ∈ unseen key seen l) : a ∈ l ∧ key a ∉ seen := by
  induction l generalizing seen with
  | nil => nomatch h
  | cons b l ih =>
    rw [unseen] at h
    split at h
    · exact ⟨List.mem_cons_of_mem _ (ih h).1, (ih h).2⟩
    · next hb =>
      rcases List.mem_cons.1 h with rfl | h
      · exact ⟨List.mem_cons_self, hb⟩
      · exact ⟨List.mem_cons_of_mem _ (ih h).1, fun hs => (ih h).2 (List.mem_cons_of_mem _ hs)⟩

/-- Every key that is not among those seen is the key of an unseen item, though maybe of an earlier
one than the item asked about: the first item with a key stands for all. -/
theorem exists_unseen {key : α → κ} {seen : List κ} {l : List α} {a : α} (ha : a ∈ l)
    (hs : key a ∉ seen) : ∃ b ∈ unseen key seen l, key b = key a := by
  induction l generalizing seen with
  | nil => nomatch ha
  | cons b l ih =>
    rw [unseen]
    rcases List.mem_cons.1 ha with rfl | ha
    · rw [if_neg hs]
      exact ⟨a, List.mem_cons_self, rfl⟩
    · split
      · exact ih ha hs
      · by_cases hba : key b = key a
        · exact ⟨b, List.mem_cons_self, hba⟩
        · have hfresh : key a ∉ key b :: seen := fun h =>
            (List.mem_cons.1 h).elim (fun e => hba e.symm) hs
          obtain ⟨c, hc, hca⟩ := ih ha hfresh
          exact ⟨c, List.mem_cons_of_mem _ hc, hca⟩

omit [DecidableEq κ] in
/-- A test that fails where another one holds, and nowhere holds alone, counts less. The search
counts the keys not yet seen, and each layer that is not empty takes one away. -/
theorem countP_lt_countP {p q : κ → Bool} {l : List κ} {k : κ}
    (h : ∀ x ∈ l, p x = true → q x = true) (hk : k ∈ l) (hq : q k = true)
    (hp : p k = false) : l.countP p < l.countP q := by
  induction l with
  | nil => nomatch hk
  | cons b l ih =>
    have hl : ∀ x ∈ l, p x = true → q x = true := fun x hx => h x (List.mem_cons_of_mem _ hx)
    have hle : l.countP p ≤ l.countP q := List.countP_mono_left hl
    rw [List.countP_cons, List.countP_cons]
    rcases List.mem_cons.1 hk with rfl | hk
    · rw [hp, hq, if_neg (by simp), if_pos rfl]
      omega
    · have hlt := ih hl hk
      have hb := h b List.mem_cons_self
      split
      · next hpb => rw [if_pos (hb hpb)]; omega
      · split <;> omega

/-- The layers from a given one on, when the keys in `seen` have been met. -/
def layersFrom (key : α → κ) (next : α → List α)
    (finite : ∃ keys : List κ, ∀ a, ∀ b ∈ next a, key b ∈ keys)
    (seen : List κ) (layer : List α) : List (List α) :=
  match layer with
  | [] => []
  | a :: rest =>
    let following := unseen key seen ((a :: rest).flatMap next)
    (a :: rest) :: layersFrom key next finite (following.map key ++ seen) following
termination_by (finite.choose.countP (fun k => decide (k ∉ seen)), layer.length)
decreasing_by
  generalize hf : unseen key seen ((a :: rest).flatMap next) = following
  cases following with
  | nil => simp [Prod.lex_def]
  | cons b l =>
    left
    have hb : b ∈ unseen key seen ((a :: rest).flatMap next) := hf ▸ List.mem_cons_self
    obtain ⟨hmem, hfresh⟩ := mem_of_mem_unseen hb
    obtain ⟨c, _, hc⟩ := List.mem_flatMap.1 hmem
    refine countP_lt_countP ?_ (finite.choose_spec c b hc) (by simpa using hfresh) (by simp)
    intro k _ hk
    simp only [List.mem_append, not_or, decide_eq_true_eq] at hk ⊢
    exact hk.2

/-- The layers of a search: the roots, then the items that are first met one step
further on, and so forth. -/
def layers (key : α → κ) (next : α → List α)
    (finite : ∃ keys : List κ, ∀ a, ∀ b ∈ next a, key b ∈ keys) (roots : List α) :
    List (List α) :=
  layersFrom key next finite (roots.map key) roots

/-! ## What is met -/

variable {key : α → κ} {next : α → List α}
  {finite : ∃ keys : List κ, ∀ a, ∀ b ∈ next a, key b ∈ keys}

/-- What holds of a layer and is handed on at each step holds of that layer and all later ones. The
induction is the recursion of the search itself; the keys seen so far play no part. -/
theorem forall_mem_layersFrom {p : α → Prop} (hnext : ∀ a, p a → ∀ b ∈ next a, p b)
    {seen : List κ} {layer : List α} (hlayer : ∀ a ∈ layer, p a) :
    ∀ a ∈ (layersFrom key next finite seen layer).flatten, p a := by
  fun_induction layersFrom key next finite seen layer with
  | case1 => simp
  | case2 seen a rest following ih =>
    intro b hb
    rcases List.mem_append.1 (List.flatten_cons ▸ hb) with hb | hb
    · exact hlayer b hb
    · refine ih (fun c hc => ?_) b hb
      obtain ⟨d, hd, hcd⟩ := List.mem_flatMap.1 (mem_of_mem_unseen hc).1
      exact hnext d (hlayer d hd) c hcd

/-- What holds of the roots and is handed on at each step holds of all that is met. -/
theorem forall_mem_layers {p : α → Prop} {roots : List α} (hroots : ∀ a ∈ roots, p a)
    (hnext : ∀ a, p a → ∀ b ∈ next a, p b) :
    ∀ a ∈ (layers key next finite roots).flatten, p a :=
  forall_mem_layersFrom hnext hroots

/-- A layer belongs to what is met from that layer on. -/
theorem mem_flatten_layersFrom {seen : List κ} {layer : List α} {a : α} (ha : a ∈ layer) :
    a ∈ (layersFrom key next finite seen layer).flatten := by
  cases layer with
  | nil => nomatch ha
  | cons b rest =>
    rw [layersFrom, List.flatten_cons]
    exact List.mem_append_left _ ha

/-- What a step leads to from an item that is met has a key that was seen before, or is met up to
its key. The first alternative is there for the induction: it shrinks with every layer, and at the
roots it is void. -/
theorem exists_mem_layersFrom {seen : List κ} {layer : List α} {a b : α}
    (ha : a ∈ (layersFrom key next finite seen layer).flatten) (hb : b ∈ next a) :
    key b ∈ seen ∨ ∃ c ∈ (layersFrom key next finite seen layer).flatten, key c = key b := by
  fun_induction layersFrom key next finite seen layer with
  | case1 => nomatch ha
  | case2 seen d rest following ih =>
    rw [List.flatten_cons] at ha ⊢
    by_cases hseen : key b ∈ seen
    · exact .inl hseen
    refine .inr ?_
    -- whatever is in the next layer is among what is met later on
    have hlater : ∀ c ∈ following, ∃ e ∈ (d :: rest) ++
        (layersFrom key next finite (following.map key ++ seen) following).flatten,
        key e = key c := fun c hc =>
      ⟨c, List.mem_append_right _ (mem_flatten_layersFrom hc), rfl⟩
    -- the item is in this layer, and the step leads into the next, or it is in a later one
    rcases List.mem_append.1 ha with ha | ha
    · obtain ⟨c, hc, hcb⟩ := exists_unseen (List.mem_flatMap.2 ⟨a, ha, hb⟩) hseen
      obtain ⟨e, he, hec⟩ := hlater c hc
      exact ⟨e, he, hec.trans hcb⟩
    · rcases ih ha with h | ⟨c, hc, hcb⟩
      -- seen by then means seen in the next layer, which is met, or seen before
      · rcases List.mem_append.1 h with h | h
        · obtain ⟨c, hc, hcb⟩ := List.mem_map.1 h
          obtain ⟨e, he, hec⟩ := hlater c hc
          exact ⟨e, he, hec.trans hcb⟩
        · exact absurd h hseen
      · exact ⟨c, List.mem_append_right _ hc, hcb⟩

/-- What a step leads to from an item that is met is met too, up to its key. With
`forall_mem_layers` this says what a search finds: the least set of keys that holds the roots and is
closed under the steps. -/
theorem exists_mem_layers {roots : List α} {a b : α}
    (ha : a ∈ (layers key next finite roots).flatten) (hb : b ∈ next a) :
    ∃ c ∈ (layers key next finite roots).flatten, key c = key b := by
  rcases exists_mem_layersFrom ha hb with h | h
  · obtain ⟨c, hc, hcb⟩ := List.mem_map.1 h
    exact ⟨c, mem_flatten_layersFrom hc, hcb⟩
  · exact h

end PatternAutomata.Search
