/-
Finite maps kept as lists of entries with strictly ascending keys.

The tables of a state are such maps: which symbols have an entry is itself visible,
even where the entry is an empty set, so a look-up answers with an `Option` and
erasing a key is not the same as storing an empty value. Look-up after each
operation is stated beside the operation, and maps that answer every look-up alike
are equal (`OrdMap.ext_get?`).
-/
import PatternAutomata.Ordered.Set

set_option autoImplicit false

namespace PatternAutomata

open Std

/-- A finite map, as the list of its entries in ascending order of their keys. -/
structure OrdMap (κ : Type) [Ord κ] (ν : Type) where
  entries : List (κ × ν)
  ascending : entries.Pairwise (fun a b => compare a.1 b.1 = .lt)

namespace OrdMap

variable {κ : Type} [Ord κ] {ν : Type}

instance [DecidableEq κ] [DecidableEq ν] : DecidableEq (OrdMap κ ν) := fun m n =>
  if h : m.entries = n.entries then
    .isTrue (by cases m; cases n; simp_all)
  else .isFalse (fun e => h (e ▸ rfl))

/-- The map with no entries. -/
def empty : OrdMap κ ν := ⟨[], .nil⟩

instance : EmptyCollection (OrdMap κ ν) := ⟨empty⟩
instance : Inhabited (OrdMap κ ν) := ⟨∅⟩

@[simp] theorem entries_empty : (∅ : OrdMap κ ν).entries = [] := rfl

/-- The keys that have an entry, in ascending order. -/
def keys (m : OrdMap κ ν) : List κ := m.entries.map (·.1)

/-- The number of entries. -/
def size (m : OrdMap κ ν) : Nat := m.entries.length

section Lookup

variable [DecidableEq κ]

/-- The value stored for a key. -/
def get? (m : OrdMap κ ν) (k : κ) : Option ν := m.entries.lookup k

@[simp] theorem get?_empty (k : κ) : (∅ : OrdMap κ ν).get? k = none := rfl

/-- Whether a key has an entry. -/
def contains (m : OrdMap κ ν) (k : κ) : Bool := (m.get? k).isSome

/-- The map without the entry for a key. -/
def erase (m : OrdMap κ ν) (k : κ) : OrdMap κ ν :=
  ⟨m.entries.filter (fun e => e.1 ≠ k), m.ascending.filter _⟩

omit [Ord κ] in
/-- A look-up takes the first entry for its key. This is the shape into which the look-up after
every operation is brought. -/
theorem lookup_cons_eq_ite {l : List (κ × ν)} {i j : κ} {v : ν} :
    ((i, v) :: l).lookup j = if j = i then some v else l.lookup j := by
  rw [List.lookup_cons]
  by_cases h : j = i
  · simp [h]
  · rw [beq_false_of_ne h, if_neg h]

omit [Ord κ] in
/-- Without its entries a key is not found, and the other keys are found as before. -/
private theorem lookup_filter_ne {l : List (κ × ν)} {k j : κ} :
    (l.filter (fun e => e.1 ≠ k)).lookup j = if j = k then none else l.lookup j := by
  induction l with
  | nil => simp
  | cons e l ih =>
    obtain ⟨i, v⟩ := e
    rw [List.filter_cons, lookup_cons_eq_ite]
    by_cases hik : i = k
    · subst hik
      simp only [ne_eq, not_true_eq_false, decide_false, Bool.false_eq_true, if_false, ih]
      grind
    · simp only [ne_eq, hik, not_false_eq_true, decide_true, if_true, lookup_cons_eq_ite, ih]
      grind

/-- After a key is erased its look-up fails, and no other look-up changes. -/
@[simp] theorem get?_erase {m : OrdMap κ ν} {k j : κ} :
    (m.erase k).get? j = if j = k then none else m.get? j :=
  lookup_filter_ne

end Lookup

/-- Stores an entry in an ascending list of entries. -/
def insertInto (k : κ) (v : ν) : List (κ × ν) → List (κ × ν)
  | [] => [(k, v)]
  | e :: l =>
    match compare k e.1 with
    | .lt => (k, v) :: e :: l
    | .eq => (k, v) :: l
    | .gt => e :: insertInto k v l

/-- An entry of a list in which another one was stored has the key that was stored or was there
before. Only the direction that the ordering needs is stated. -/
theorem key_mem_insertInto {k : κ} {v : ν} {l : List (κ × ν)} {e : κ × ν}
    (h : e ∈ insertInto k v l) : e.1 = k ∨ e ∈ l := by
  induction l with
  | nil => simp_all [insertInto]
  | cons f l ih =>
    rw [insertInto] at h
    split at h <;> simp only [List.mem_cons] at h ⊢ <;> grind

variable [LawfulEqOrd κ]

/-- A look-up after an entry was stored gives what was stored for its key and otherwise what was
there before. For this the list need not be in order: an entry further on for the same key is
hidden. -/
private theorem lookup_insertInto [DecidableEq κ] {k j : κ} {v : ν} {l : List (κ × ν)} :
    (insertInto k v l).lookup j = if j = k then some v else l.lookup j := by
  induction l with
  | nil => exact lookup_cons_eq_ite
  | cons e l ih =>
    obtain ⟨i, w⟩ := e
    rw [insertInto]
    split
    · exact lookup_cons_eq_ite
    · next h =>
      have : k = i := LawfulEqCmp.eq_of_compare h
      simp only [lookup_cons_eq_ite, this]
      grind
    · next h =>
      -- keys that compare unequal are different, so the entry passed over is not the one looked up
      have hne : i ≠ k := fun e => by
        subst e
        have hii : compare i i = .eq := ReflCmp.compare_self
        rw [h] at hii
        nomatch hii
      simp only [lookup_cons_eq_ite, ih]
      grind

variable [TransOrd κ]

/-- Storing an entry keeps the keys strictly ascending; an entry for the same key is replaced where
it stands. The same three cases as for sets (`OrdSet.ascending_insertInto`). -/
theorem ascending_insertInto {k : κ} {v : ν} {l : List (κ × ν)}
    (h : l.Pairwise (fun a b => compare a.1 b.1 = .lt)) :
    (insertInto k v l).Pairwise (fun a b => compare a.1 b.1 = .lt) := by
  induction l with
  | nil => simp [insertInto]
  | cons e l ih =>
    obtain ⟨he, hl⟩ := List.pairwise_cons.1 h
    rw [insertInto]
    split
    · next hke =>
      refine List.pairwise_cons.2 ⟨fun f hf => ?_, h⟩
      rcases List.mem_cons.1 hf with rfl | hf
      · exact hke
      · exact TransCmp.lt_trans hke (he f hf)
    · next hke =>
      have := LawfulEqCmp.eq_of_compare hke
      exact List.pairwise_cons.2 ⟨fun f hf => this ▸ he f hf, hl⟩
    · next hke =>
      refine List.pairwise_cons.2 ⟨fun f hf => ?_, ih hl⟩
      rcases key_mem_insertInto hf with e' | hf
      · exact e' ▸ OrientedCmp.gt_iff_lt.1 hke
      · exact he f hf

/-- The map with one entry stored, in place of any entry for that key. -/
def insert (m : OrdMap κ ν) (k : κ) (v : ν) : OrdMap κ ν :=
  ⟨insertInto k v m.entries, ascending_insertInto m.ascending⟩

/-- After an entry is stored its key gives the value stored, and no other look-up changes. -/
@[simp] theorem get?_insert [DecidableEq κ] {m : OrdMap κ ν} {k j : κ} {v : ν} :
    (m.insert k v).get? j = if j = k then some v else m.get? j :=
  lookup_insertInto

/-- The map of a list of entries; a later entry for the same key replaces the earlier
one. -/
def ofList (l : List (κ × ν)) : OrdMap κ ν := l.foldl (fun m e => m.insert e.1 e.2) ∅

/-! ## Entries and look-ups -/

variable [DecidableEq κ]

/-- In an ascending list the look-up finds every entry, because no second one has the same key. -/
private theorem mem_iff_lookup {l : List (κ × ν)}
    (h : l.Pairwise (fun a b => compare a.1 b.1 = .lt)) {k : κ} {v : ν} :
    (k, v) ∈ l ↔ l.lookup k = some v := by
  induction l with
  | nil => simp
  | cons e l ih =>
    obtain ⟨i, w⟩ := e
    obtain ⟨he, hl⟩ := List.pairwise_cons.1 h
    have hfresh : ∀ w, (i, w) ∉ l := fun w hw =>
      OrdSet.compare_asymm (x := i) (y := i) (he _ hw) (he _ hw)
    simp only [List.mem_cons, lookup_cons_eq_ite, Prod.mk.injEq]
    by_cases hk : k = i
    · subst hk
      simp [hfresh, eq_comm]
    · simp [hk, ih hl]

/-- An entry is in the list exactly when its key's look-up gives its value. With this a walk through
the entries, as every listing makes, can be discussed by look-ups alone. -/
theorem mem_entries_iff {m : OrdMap κ ν} {k : κ} {v : ν} :
    (k, v) ∈ m.entries ↔ m.get? k = some v :=
  mem_iff_lookup m.ascending

/-- The keys are those for which something is stored, be it an empty value. -/
theorem mem_keys_iff {m : OrdMap κ ν} {k : κ} :
    k ∈ m.keys ↔ m.contains k = true := by
  rw [keys, contains, Option.isSome_iff_exists, List.mem_map]
  constructor
  · rintro ⟨⟨j, v⟩, hm, rfl⟩
    exact ⟨v, mem_entries_iff.1 hm⟩
  · rintro ⟨v, hv⟩
    exact ⟨(k, v), mem_entries_iff.2 hv, rfl⟩

/-- Maps that answer every look-up alike are equal: the principle by which two tables are shown to
be the same table. -/
theorem ext_get? {m n : OrdMap κ ν} (h : ∀ k, m.get? k = n.get? k) : m = n := by
  have : m.entries = n.entries := by
    refine OrdSet.eq_of_ascending OrdSet.compare_asymm m.ascending n.ascending fun e => ?_
    obtain ⟨k, v⟩ := e
    rw [mem_entries_iff, mem_entries_iff, h]
  cases m; cases n; simp_all

end OrdMap

end PatternAutomata
