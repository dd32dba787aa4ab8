/-
Sets of states by name.

The name of a set of states is the row of their distinct identifiers in ascending order, written as
decimal numbers with a space between any two. A number is written with at least one character and
without spaces, so the row can be read off its text (`Text.intercalate_space_inj`). Sets with the
same name therefore have the same identifiers (`Graph.keyText_eq_iff`), and it makes no difference
whether sets are told apart by their names or, as the subset construction does, by the sets of their
identifiers.

Among states whose identifiers differ the name says which states were listed, and nothing about the
order in which they were or how often (`Graph.keyText_ofList_eq_iff`).
-/
import PatternAutomata.Proofs.Canonical.Subsets
import Std.Data.String.ToInt

set_option autoImplicit false

namespace PatternAutomata

/-! ## Rows of numbers -/

namespace Text

/-- What can stand between spaces: it has characters, none of which is a space. -/
def IsWord (s : String) : Prop := s.toList ≠ [] ∧ ' ' ∉ s.toList

/-- Digits are no spaces. -/
theorem space_not_mem_toDigits (n : Nat) : ' ' ∉ Nat.toDigits 10 n := by
  intro hspace
  have hdigit : (' ' : Char).isDigit = true :=
    Nat.isDigit_of_mem_toDigits (by decide) (by decide) hspace
  exact absurd hdigit (by decide)

/-- A number is written without spaces, and with at least one digit. A sign is no space either. -/
theorem isWord_toString (i : Int) : IsWord (toString i) := by
  cases i with
  | ofNat n =>
    have hdigits : (toString (Int.ofNat n)).toList = Nat.toDigits 10 n := Nat.toList_repr
    rw [IsWord, hdigits]
    exact ⟨Nat.toDigits_ne_nil, space_not_mem_toDigits n⟩
  | negSucc n =>
    have hdigits : (toString (Int.negSucc n)).toList = '-' :: Nat.toDigits 10 (n + 1) := by
      show ("-" ++ (n + 1).repr).toList = _
      rw [String.toList_append, Nat.toList_repr]
      rfl
    rw [IsWord, hdigits]
    refine ⟨List.cons_ne_nil _ _, ?_⟩
    rw [List.mem_cons, not_or]
    exact ⟨by decide, space_not_mem_toDigits (n + 1)⟩

/-- A row of words that is not empty can be read off its text by splitting it at the spaces. -/
theorem splitOn_intercalate_space {ss : List String} (hss : ∀ s ∈ ss, IsWord s) (hne : ss ≠ []) :
    (" ".intercalate ss).toList.splitOn ' ' = ss.map String.toList := by
  rw [String.toList_intercalate]
  apply List.splitOn_intercalate
  · intro cs hcs
    obtain ⟨s, hs, rfl⟩ := List.mem_map.1 hcs
    exact (hss s hs).2
  · exact fun h => hne (List.map_eq_nil_iff.1 h)

/-- The text of a row of words is empty only if the row is. This row has to be told from a row with
one empty word, which is not a word. -/
theorem intercalate_space_eq_empty_iff {ss : List String} (hss : ∀ s ∈ ss, IsWord s) :
    " ".intercalate ss = "" ↔ ss = [] := by
  constructor
  · intro hempty
    by_contra hne
    -- the empty text reads as one word without characters, and there is no such word
    have hsplit : [[]] = ss.map String.toList := by
      rw [← splitOn_intercalate_space hss hne, hempty]
      rfl
    have hmem : [] ∈ ss.map String.toList := by
      rw [← hsplit]
      exact List.mem_singleton.2 rfl
    obtain ⟨s, hs, hs_empty⟩ := List.mem_map.1 hmem
    exact (hss s hs).1 hs_empty
  · rintro rfl
    exact String.intercalate_nil

/-- Rows of words with the same text are the same. -/
theorem intercalate_space_inj {ss ts : List String} (hss : ∀ s ∈ ss, IsWord s)
    (hts : ∀ t ∈ ts, IsWord t) (h : " ".intercalate ss = " ".intercalate ts) : ss = ts := by
  by_cases hempty : ss = []
  · have hts_empty := (intercalate_space_eq_empty_iff hts).1
      (h.symm.trans ((intercalate_space_eq_empty_iff hss).2 hempty))
    rw [hempty, hts_empty]
  · have hts_ne : ts ≠ [] := by
      rintro rfl
      exact hempty ((intercalate_space_eq_empty_iff hss).1 h)
    have hwords : ss.map String.toList = ts.map String.toList := by
      rw [← splitOn_intercalate_space hss hempty, h, splitOn_intercalate_space hts hts_ne]
    exact List.map_injective_iff.2 (fun _ _ => String.toList_inj.1) hwords

/-- Numbers with a space between any two can be read off their text. Different numbers are written
differently. -/
theorem intercalate_space_map_toString_inj {is js : List Int}
    (h : " ".intercalate (is.map toString) = " ".intercalate (js.map toString)) : is = js := by
  have hwords : ∀ ks : List Int, ∀ s ∈ ks.map toString, IsWord s := by
    intro ks s hs
    obtain ⟨i, _, rfl⟩ := List.mem_map.1 hs
    exact isWord_toString i
  have hrows := intercalate_space_inj (hwords is) (hwords js) h
  exact List.map_injective_iff.2 (fun _ _ => Int.repr_inj.1) hrows

end Text

/-! ## Names -/

namespace Graph

variable {g : Graph}

/-- Sets of states have the same name exactly if they have the same identifiers. -/
theorem keyText_eq_iff {vs ws : VertexSet} :
    g.keyText vs = g.keyText ws ↔ g.idSet vs = g.idSet ws := by
  constructor
  · intro h
    have hids : (g.idSet vs).toList = (g.idSet ws).toList :=
      Text.intercalate_space_map_toString_inj h
    ext i
    rw [← OrdSet.mem_toList, hids, OrdSet.mem_toList]
  · intro h
    rw [keyText, h, keyText]

/-- Of states whose identifiers differ, two listings have the same name exactly if they list the
same states. The order of a listing and repetitions in it do not matter. -/
theorem keyText_ofList_eq_iff {S : VertexSet}
    (hid : ∀ v ∈ S, ∀ w ∈ S, (g.node v).id = (g.node w).id → v = w) {vs ws : List Vertex}
    (hvs : ∀ v ∈ vs, v ∈ S) (hws : ∀ w ∈ ws, w ∈ S) :
    g.keyText (.ofList vs) = g.keyText (.ofList ws) ↔ ∀ v, v ∈ vs ↔ v ∈ ws := by
  rw [keyText_eq_iff]
  constructor
  · intro h v
    have hsame : OrdSet.ofList vs = OrdSet.ofList ws :=
      eq_of_idSet_eq hid (fun v hv => hvs v (OrdSet.mem_ofList.1 hv))
        (fun w hw => hws w (OrdSet.mem_ofList.1 hw)) h
    rw [← OrdSet.mem_ofList, hsame, OrdSet.mem_ofList]
  · intro h
    have hsame : OrdSet.ofList vs = OrdSet.ofList ws := by
      ext v
      rw [OrdSet.mem_ofList, OrdSet.mem_ofList, h]
    rw [hsame]

/-- States whose numbers are written with the same digits, and one with a negative number. -/
def closeNumbers : Graph := ⟨#[{ id := 1 }, { id := 2 }, { id := 12 }, { id := -12 }]⟩

/-- The first two states are not taken for the third one, and it makes no difference how they are
listed with the last one. -/
theorem keyText_closeNumbers :
    let S : VertexSet := .ofList [0, 1, 2, 3]
    (∀ v ∈ S, ∀ w ∈ S, (closeNumbers.node v).id = (closeNumbers.node w).id → v = w) ∧
      (∀ v ∈ [0, 1], v ∈ S) ∧ (∀ v ∈ [2], v ∈ S) ∧ (∀ v ∈ [3, 1, 0, 1], v ∈ S) ∧
      (∀ v ∈ [0, 1, 3], v ∈ S) ∧
      closeNumbers.keyText (.ofList [0, 1]) ≠ closeNumbers.keyText (.ofList [2]) ∧
      closeNumbers.keyText (.ofList [3, 1, 0, 1]) = closeNumbers.keyText (.ofList [0, 1, 3]) := by
  intro S
  have hid : ∀ v ∈ S.toList, ∀ w ∈ S.toList,
      (closeNumbers.node v).id = (closeNumbers.node w).id → v = w := by decide
  have hfirst : ∀ v ∈ [0, 1], v ∈ S := by decide
  have hthird : ∀ v ∈ [2], v ∈ S := by decide
  have hmixed : ∀ v ∈ [3, 1, 0, 1], v ∈ S := by decide
  have hsorted : ∀ v ∈ [0, 1, 3], v ∈ S := by decide
  refine ⟨hid, hfirst, hthird, hmixed, hsorted, ?_, ?_⟩
  · intro h
    have hmem := ((keyText_ofList_eq_iff hid hfirst hthird).1 h 0).1 List.mem_cons_self
    exact absurd hmem (by decide)
  · refine (keyText_ofList_eq_iff hid hmixed hsorted).2 fun v => ?_
    simp only [List.mem_cons, List.not_mem_nil, or_false]
    grind

end Graph

end PatternAutomata
