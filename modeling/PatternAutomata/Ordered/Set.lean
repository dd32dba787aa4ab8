/-
Finite sets kept as strictly ascending lists.

Automata are compared state by state, so a set must have one form only: two sets
with the same members are the same value (`OrdSet.ext`). The order of the list is
also the order in which every listing of the library goes through a set, which is
why nothing here depends on the history of insertions.

Membership after each operation is stated once, beside the operation; nothing
outside this file looks at the list inside except to go through it.
-/

set_option autoImplicit false

namespace PatternAutomata

open Std

/-- A finite set, as the strictly ascending list of its members. -/
structure OrdSet (α : Type) [Ord α] where
  toList : List α
  ascending : toList.Pairwise (fun a b => compare a b = .lt)

namespace OrdSet

variable {α : Type} [Ord α]

instance : Membership α (OrdSet α) := ⟨fun s a => a ∈ s.toList⟩

theorem mem_def {s : OrdSet α} {a : α} : a ∈ s ↔ a ∈ s.toList := Iff.rfl

/-- Membership in the list inside is membership in the set: simplification always ends with the set,
so that no statement outside this file is about the list. -/
@[simp] theorem mem_toList {s : OrdSet α} {a : α} : a ∈ s.toList ↔ a ∈ s := Iff.rfl

instance [DecidableEq α] (s : OrdSet α) (a : α) : Decidable (a ∈ s) :=
  inferInstanceAs (Decidable (a ∈ s.toList))

/-- Sets that share their storage are equal at once; others are compared member by
member. -/
instance [DecidableEq α] : DecidableEq (OrdSet α) := fun s t =>
  withPtrEqDecEq s t fun _ =>
    if h : s.toList = t.toList then
      .isTrue (by cases s; cases t; simp_all)
    else .isFalse (fun e => h (e ▸ rfl))

/-- The set with no members. -/
def empty : OrdSet α := ⟨[], .nil⟩

instance : EmptyCollection (OrdSet α) := ⟨empty⟩
instance : Inhabited (OrdSet α) := ⟨∅⟩

@[simp] theorem not_mem_empty (a : α) : a ∉ (∅ : OrdSet α) := List.not_mem_nil

@[simp] theorem toList_empty : (∅ : OrdSet α).toList = [] := rfl

/-- The number of members. -/
def size (s : OrdSet α) : Nat := s.toList.length

/-- Whether there are no members. -/
def isEmpty (s : OrdSet α) : Bool := s.toList.isEmpty

/-- The test for members answers as expected, said by members: this form needs no law of the order.
Where the order is lawful, `isEmpty_iff_eq` says it as an equation of sets. -/
theorem isEmpty_iff {s : OrdSet α} : s.isEmpty = true ↔ ∀ a, a ∉ s := by
  rw [isEmpty, List.isEmpty_iff, List.eq_nil_iff_forall_not_mem]
  exact Iff.rfl

/-- The set with one member. -/
def singleton (a : α) : OrdSet α := ⟨[a], List.pairwise_singleton _ a⟩

instance : Singleton α (OrdSet α) := ⟨singleton⟩

@[simp] theorem mem_singleton {a b : α} : a ∈ ({b} : OrdSet α) ↔ a = b :=
  List.mem_singleton

@[simp] theorem toList_singleton (a : α) : ({a} : OrdSet α).toList = [a] := rfl

/-! ## Members that pass a test -/

/-- The members that pass a test. -/
def filter (p : α → Bool) (s : OrdSet α) : OrdSet α :=
  ⟨s.toList.filter p, s.ascending.filter p⟩

/-- A test picks out members and changes nothing about their order, so the list stays ascending. -/
@[simp] theorem mem_filter {p : α → Bool} {s : OrdSet α} {a : α} :
    a ∈ s.filter p ↔ a ∈ s ∧ p a = true :=
  List.mem_filter

section Removal

variable [DecidableEq α]

/-- The set without one value. -/
def erase (s : OrdSet α) (a : α) : OrdSet α := s.filter (fun b => b ≠ a)

@[simp] theorem mem_erase {s : OrdSet α} {a b : α} : b ∈ s.erase a ↔ b ∈ s ∧ b ≠ a := by
  simp [erase]

/-- The members that are not in another set. -/
def diff (s t : OrdSet α) : OrdSet α := s.filter (fun b => b ∉ t)

instance : SDiff (OrdSet α) := ⟨diff⟩

@[simp] theorem mem_sdiff {s t : OrdSet α} {a : α} : a ∈ s \ t ↔ a ∈ s ∧ a ∉ t := by
  simp [SDiff.sdiff, diff]

/-- Taking out a member makes a set smaller. One common member is enough: what else the two sets
have in common can only make it smaller still. -/
theorem size_sdiff_lt {s t : OrdSet α} {a : α} (hs : a ∈ s) (ht : a ∈ t) :
    (s \ t).size < s.size :=
  List.length_filter_lt_length_iff_exists.2 ⟨a, hs, by simpa using ht⟩

/-- Taking out one member makes a set smaller. This is the measure of the loops that take their
candidates from a set one at a time. -/
theorem size_erase_lt {s : OrdSet α} {a : α} (h : a ∈ s) : (s.erase a).size < s.size :=
  List.length_filter_lt_length_iff_exists.2 ⟨a, h, by simp⟩

end Removal

/-! ## Adding members -/

/-- Puts a value into an ascending list, unless it is there. -/
def insertInto (a : α) : List α → List α
  | [] => [a]
  | b :: l =>
    match compare a b with
    | .lt => a :: b :: l
    | .eq => b :: l
    | .gt => b :: insertInto a l

/-- The members of two ascending lists as one. -/
def mergeInto : List α → List α → List α
  | [], m => m
  | a :: l, [] => a :: l
  | a :: l, b :: m =>
    match compare a b with
    | .lt => a :: mergeInto l (b :: m)
    | .eq => a :: mergeInto l m
    | .gt => b :: mergeInto (a :: l) m
termination_by l m => l.length + m.length

variable [LawfulEqOrd α]

/-- Inserting adds the value and loses none, whatever order the list is in. Where the value is found
to be there already, it is the lawful comparison that makes the two the same value. -/
theorem mem_insertInto {a b : α} {l : List α} : b ∈ insertInto a l ↔ b = a ∨ b ∈ l := by
  induction l with
  | nil => simp [insertInto]
  | cons c l ih =>
    rw [insertInto]
    split
    · simp
    · next h => have := LawfulEqCmp.eq_of_compare h; subst this; simp
    · simp only [List.mem_cons, ih]; grind

/-- Merging keeps the values of both lists and adds none. The cases are those of the recursion,
which takes from whichever list has the smaller first value, or from both where they agree. -/
theorem mem_mergeInto {b : α} {l m : List α} : b ∈ mergeInto l m ↔ b ∈ l ∨ b ∈ m := by
  fun_induction mergeInto l m with
  | case1 m => simp
  | case2 a l => simp
  | case3 a l b m h ih => simp only [List.mem_cons, ih]; grind
  | case4 a l b m h ih =>
    have := LawfulEqCmp.eq_of_compare h
    subst this
    simp only [List.mem_cons, ih]; grind
  | case5 a l b m h ih => simp only [List.mem_cons, ih]; grind

variable [TransOrd α]

/-- Inserting keeps a list strictly ascending. The value goes before the first one that is greater;
if one is met that compares equal, nothing is inserted, and that is why no value stands there
twice. -/
theorem ascending_insertInto {a : α} {l : List α}
    (h : l.Pairwise (fun a b => compare a b = .lt)) :
    (insertInto a l).Pairwise (fun a b => compare a b = .lt) := by
  induction l with
  | nil => simp [insertInto]
  | cons c l ih =>
    obtain ⟨hc, hl⟩ := List.pairwise_cons.1 h
    rw [insertInto]
    split
    · next hac =>
      refine List.pairwise_cons.2 ⟨fun b hb => ?_, h⟩
      rcases List.mem_cons.1 hb with rfl | hb
      · exact hac
      · exact TransCmp.lt_trans hac (hc b hb)
    · exact h
    -- the value goes further on, and whatever it is placed behind is smaller
    · next hac =>
      refine List.pairwise_cons.2 ⟨fun b hb => ?_, ih hl⟩
      rcases mem_insertInto.1 hb with rfl | hb
      · exact OrientedCmp.gt_iff_lt.1 hac
      · exact hc b hb

/-- Merging keeps lists strictly ascending. In each case the value in front is below all that
follows it in its own list, and below all that follows in the other list by one more step of
transitivity. -/
theorem ascending_mergeInto {l m : List α}
    (hl : l.Pairwise (fun a b => compare a b = .lt))
    (hm : m.Pairwise (fun a b => compare a b = .lt)) :
    (mergeInto l m).Pairwise (fun a b => compare a b = .lt) := by
  fun_induction mergeInto l m with
  | case1 m => exact hm
  | case2 a l => exact hl
  | case3 a l b m h ih =>
    obtain ⟨ha, hl'⟩ := List.pairwise_cons.1 hl
    refine List.pairwise_cons.2 ⟨fun c hc => ?_, ih hl' hm⟩
    rcases mem_mergeInto.1 hc with hc | hc
    · exact ha c hc
    · rcases List.mem_cons.1 hc with rfl | hc
      · exact h
      · exact TransCmp.lt_trans h ((List.pairwise_cons.1 hm).1 c hc)
  | case4 a l b m h ih =>
    obtain ⟨ha, hl'⟩ := List.pairwise_cons.1 hl
    obtain ⟨hb, hm'⟩ := List.pairwise_cons.1 hm
    -- both lists start with the same value, which is taken once
    have := LawfulEqCmp.eq_of_compare h
    subst this
    refine List.pairwise_cons.2 ⟨fun c hc => ?_, ih hl' hm'⟩
    rcases mem_mergeInto.1 hc with hc | hc
    · exact ha c hc
    · exact hb c hc
  | case5 a l b m h ih =>
    obtain ⟨hb, hm'⟩ := List.pairwise_cons.1 hm
    -- as in the third case with the lists exchanged
    have hba := OrientedCmp.gt_iff_lt.1 h
    refine List.pairwise_cons.2 ⟨fun c hc => ?_, ih hl hm'⟩
    rcases mem_mergeInto.1 hc with hc | hc
    · rcases List.mem_cons.1 hc with rfl | hc
      · exact hba
      · exact TransCmp.lt_trans hba ((List.pairwise_cons.1 hl).1 c hc)
    · exact hb c hc

/-- The set with one more member. -/
def insert (s : OrdSet α) (a : α) : OrdSet α :=
  ⟨insertInto a s.toList, ascending_insertInto s.ascending⟩

/-- What is inserted is a member from then on, and nothing else becomes one. -/
@[simp] theorem mem_insert {s : OrdSet α} {a b : α} : b ∈ s.insert a ↔ b = a ∨ b ∈ s :=
  mem_insertInto

/-- The members of either set. -/
def union (s t : OrdSet α) : OrdSet α :=
  ⟨mergeInto s.toList t.toList, ascending_mergeInto s.ascending t.ascending⟩

instance : Union (OrdSet α) := ⟨union⟩

@[simp] theorem mem_union {s t : OrdSet α} {a : α} : a ∈ s ∪ t ↔ a ∈ s ∨ a ∈ t :=
  mem_mergeInto

/-- The set of the values in a list. -/
def ofList (l : List α) : OrdSet α := l.foldr (fun a s => s.insert a) ∅

/-- A set made from a list has the members of the list. How often and where each one stands in the
list is forgotten. -/
@[simp] theorem mem_ofList {l : List α} {a : α} : a ∈ ofList l ↔ a ∈ l := by
  induction l with
  | nil => simp [ofList]
  | cons b l ih => rw [ofList, List.foldr_cons, mem_insert, ← ofList, ih, List.mem_cons]

/-- The members of all the sets in a list. -/
def unions (l : List (OrdSet α)) : OrdSet α := l.foldr (· ∪ ·) ∅

/-- A member of a union of sets is a member of one of them. -/
@[simp] theorem mem_unions {l : List (OrdSet α)} {a : α} :
    a ∈ unions l ↔ ∃ s ∈ l, a ∈ s := by
  induction l with
  | nil => simp [unions]
  | cons s l ih => rw [unions, List.foldr_cons, mem_union, ← unions, ih]; simp

/-! ## One form for each set -/

/-- A list in an order that never runs both ways holds nothing twice. Stated for any such relation,
because it serves sets, where values are compared, and maps, where only keys are. -/
theorem nodup_of_ascending {β : Type} {r : β → β → Prop} {l : List β}
    (asymm : ∀ {x y : β}, r x y → r y x → False) (hl : l.Pairwise r) : l.Nodup := by
  refine List.Pairwise.imp (S := fun x y => x ≠ y) ?_ hl
  intro x y hxy e
  rw [e] at hxy
  exact asymm hxy hxy

/-- A list in an order that never runs both ways is fixed by its members. Neither holds anything
twice, so with the same members they are permutations of each other, and only one permutation is in
order. -/
theorem eq_of_ascending {β : Type} {r : β → β → Prop} {l m : List β}
    (asymm : ∀ {x y : β}, r x y → r y x → False)
    (hl : l.Pairwise r) (hm : m.Pairwise r) (h : ∀ a, a ∈ l ↔ a ∈ m) : l = m := by
  refine List.Perm.eq_of_pairwise (fun a b _ _ hab hba => (asymm hab hba).elim) hl hm ?_
  exact (List.perm_ext_iff_of_nodup (nodup_of_ascending asymm hl)
    (nodup_of_ascending asymm hm)).2 h

/-- No two values are each below the other. -/
theorem compare_asymm {x y : α} (hxy : compare x y = .lt) (hyx : compare y x = .lt) :
    False := by
  have hxx : compare x x = .eq := ReflCmp.compare_self
  rw [TransCmp.lt_trans hxy hyx] at hxx
  nomatch hxx

/-- No member is listed twice, so going through the list of a set visits each member once. -/
theorem nodup_toList (s : OrdSet α) : s.toList.Nodup :=
  nodup_of_ascending compare_asymm s.ascending

/-- Sets with the same members are equal. This is the extensionality principle that the ordering of
the lists is there for: nothing of how a set came about is left in it. -/
@[ext] theorem ext {s t : OrdSet α} (h : ∀ a, a ∈ s ↔ a ∈ t) : s = t := by
  have := eq_of_ascending compare_asymm s.ascending t.ascending h
  cases s; cases t; simp_all

/-- A set without members is the empty set, as an equation that can be rewritten with. -/
theorem isEmpty_iff_eq {s : OrdSet α} : s.isEmpty = true ↔ s = ∅ := by
  rw [isEmpty_iff]
  constructor
  · intro h
    exact ext fun a => ⟨fun ha => absurd ha (h a), fun ha => absurd ha (not_mem_empty a)⟩
  · intro h a
    rw [h]
    exact not_mem_empty a

/-- The empty set is the one that has no members. -/
theorem eq_empty_iff {s : OrdSet α} : s = ∅ ↔ ∀ a, a ∉ s :=
  isEmpty_iff_eq.symm.trans isEmpty_iff

/-- What holds one value and no other is that value alone. -/
theorem eq_singleton {s : OrdSet α} {a : α} (ha : a ∈ s) (hone : ∀ b ∈ s, b = a) : s = {a} := by
  ext b
  rw [mem_singleton]
  constructor
  · exact hone b
  · rintro rfl
    exact ha

/-- There is at most one member exactly if any two members are the same. The check for determinism
counts the targets of a symbol, and this turns the count into a statement about targets. -/
theorem size_le_one_iff {s : OrdSet α} : s.size ≤ 1 ↔ ∀ a ∈ s, ∀ b ∈ s, a = b := by
  have hnodup := s.nodup_toList
  simp only [mem_def]
  rw [size]
  generalize s.toList = l at hnodup
  obtain _ | ⟨x, _ | ⟨y, rest⟩⟩ := l
  · exact ⟨fun _ a ha => absurd ha List.not_mem_nil, fun _ => Nat.zero_le _⟩
  · refine ⟨fun _ a ha b hb => ?_, fun _ => Nat.le_refl _⟩
    rw [List.mem_singleton.1 ha, List.mem_singleton.1 hb]
  · constructor
    · intro hlen
      rw [List.length_cons, List.length_cons] at hlen
      omega
    · intro hall
      -- two members that stand one after the other differ, for nothing is listed twice
      have hxy := hall x List.mem_cons_self y (List.mem_cons_of_mem x List.mem_cons_self)
      exact absurd (hxy ▸ List.mem_cons_self) (List.nodup_cons.1 hnodup).1

/-- A set with a member less is smaller. Used where a set of states shrinks or grows strictly from
one round to the next, to show that the rounds come to an end. -/
theorem size_lt_of_subset [DecidableEq α] {s t : OrdSet α} (h : ∀ a ∈ s, a ∈ t) {a : α}
    (ht : a ∈ t) (hs : a ∉ s) : s.size < t.size := by
  have : s = t.filter (· ∈ s) := ext fun b => by
    rw [mem_filter, decide_eq_true_eq]
    exact ⟨fun hb => ⟨h b hb, hb⟩, fun hb => hb.2⟩
  rw [this]
  exact List.length_filter_lt_length_iff_exists.2 ⟨a, ht, by simpa using hs⟩

/-- A finite stock of values has finitely many subsets. The subset construction searches among sets
of states, and this is why its search comes to an end. -/
theorem exists_all_subsets [DecidableEq α] (l : List α) :
    ∃ all : List (OrdSet α), ∀ s : OrdSet α, (∀ a ∈ s, a ∈ l) → s ∈ all := by
  induction l with
  | nil =>
    refine ⟨[∅], fun s h => List.mem_singleton.2 (ext fun a => ?_)⟩
    exact ⟨fun ha => absurd (h a ha) List.not_mem_nil, fun ha => absurd ha (not_mem_empty a)⟩
  | cons b l ih =>
    -- a subset of the longer stock either has the new value or is one of the shorter stock
    obtain ⟨all, hall⟩ := ih
    refine ⟨all ++ all.map (·.insert b), fun s h => List.mem_append.2 ?_⟩
    have hrest : s.erase b ∈ all := hall _ fun a ha => by
      obtain ⟨has, hne⟩ := mem_erase.1 ha
      exact (List.mem_cons.1 (h a has)).resolve_left hne
    by_cases hb : b ∈ s
    · refine .inr (List.mem_map.2 ⟨_, hrest, ext fun a => ?_⟩)
      rw [mem_insert, mem_erase]; grind
    · refine .inl (?_ : s ∈ all)
      have : s.erase b = s := ext fun a => by rw [mem_erase]; grind
      rwa [this] at hrest

end OrdSet

end PatternAutomata
