/-
Accepting by reading.

After reading some symbols an automaton may be in exactly the states where the paths end
that spell them, so it accepts a word when some path that spells it ends in an accepting
state (`accepts_spec`). A symbol outside the alphabet is on no edge: an automaton that is
not strict reads on from nowhere, and a strict one refuses it (`accepts_refused`). Neither
accepts a word with such a symbol, and reading changes nothing but how far was read.
-/
import Mathlib.Data.List.TakeWhile
import PatternAutomata.Automaton.Language
import PatternAutomata.Automaton.Reading
import PatternAutomata.Proofs.Structure.Joining
import PatternAutomata.Proofs.Structure.Outcomes
import PatternAutomata.Proofs.Words.Simulation

set_option autoImplicit false

namespace PatternAutomata

open PatternAutomata.Graph

/-- Accepted words are spelled with symbols of the alphabet: each of their symbols is read on an
edge of the automaton, and the alphabet has the symbols of all edges. -/
theorem Automaton.Labelled.mem_alphabet {g : Graph} {a : Automaton} (ha : a.Labelled g)
    {word : List Label} (hword : word ∈ a.language g) : ∀ l ∈ word, l ∈ a.alphabet := by
  have hlanguage : a.language g ≤ { word | ∀ l ∈ word, l ∈ a.alphabet } := by
    apply languageFrom_le_family (F := fun _ => { word | ∀ l ∈ word, l ∈ a.alphabet })
      (P := (· ∈ a.states))
    · exact fun v hv l w hw => ha.target_mem hv hw
    · exact fun v _ _ l hl => absurd hl List.not_mem_nil
    · -- a silent edge spells nothing, any other one a symbol of the alphabet
      intro v hv l w hw word hword k hk
      by_cases hl : l = .epsilon
      · rw [hl] at hk
        exact hword k hk
      · rw [Label.word_of_ne hl] at hk
        rcases List.mem_cons.1 hk with rfl | hk
        · exact ha.label_mem v hv k w hw hl
        · exact hword k hk
    · exact ha.start_mem
  exact hlanguage hword

namespace Machine

variable {m m' : Machine}

/-! ## What reading leaves alone -/

/-- The machines differ at most in how far their automaton has read, and what has been read
leads to its own states. -/
structure OnlyRead (m m' : Machine) : Prop where
  graph_eq : m'.graph = m.graph
  log_eq : m'.log = m.log
  automaton_eq : m'.automaton = { m.automaton with run := m'.automaton.run }
  current_mem : ∀ v ∈ m'.automaton.run.current, v ∈ m.automaton.states

namespace OnlyRead

theorem refl (hm : m.automaton.Sound m.graph) : m.OnlyRead m := ⟨rfl, rfl, rfl, hm.current_mem⟩

/-- One reading after another is a reading. -/
theorem trans {m'' : Machine} (h : m.OnlyRead m') (h' : m'.OnlyRead m'') : m.OnlyRead m'' where
  graph_eq := h'.graph_eq.trans h.graph_eq
  log_eq := h'.log_eq.trans h.log_eq
  automaton_eq := by rw [h'.automaton_eq, h.automaton_eq]
  current_mem v hv := by
    have hv' := h'.current_mem v hv
    rwa [h.automaton_eq] at hv'

/-- Whatever has been read, the automaton is sound: only its run has changed, and that is in its
states. -/
theorem sound (h : m.OnlyRead m') (hm : m.automaton.Sound m.graph) :
    m'.automaton.Sound m'.graph := by
  rw [h.automaton_eq, h.graph_eq]
  exact hm.withRun h.current_mem

end OnlyRead

/-- Starting over changes nothing but how far was read. -/
theorem onlyRead_reset (hm : m.automaton.Sound m.graph) : m.OnlyRead m.reset where
  graph_eq := rfl
  log_eq := rfl
  automaton_eq := rfl
  current_mem v hv := by
    have hcurrent : m.reset.automaton.run.current = m.graph.closure {m.automaton.start} :=
      Run.current_begin ..
    rw [hcurrent] at hv
    exact hm.closure_start_mem v hv

/-- After a symbol the automaton is where that symbol leads. -/
theorem current_advance (m : Machine) (l : Label) :
    (m.advance l).automaton.run.current = m.after l :=
  Run.current_record ..

/-- Reading a symbol changes nothing but how far was read, be it in the alphabet or not. -/
theorem onlyRead_advance (hm : m.automaton.Sound m.graph) (l : Label) :
    m.OnlyRead (m.advance l) where
  graph_eq := rfl
  log_eq := rfl
  automaton_eq := rfl
  current_mem v hv := by
    rw [current_advance] at hv
    exact after_mem hm l v hv

/-! ## Where reading leads -/

/-- At the beginning the automaton is in its start state and wherever that leads without reading. -/
theorem current_reset (m : Machine) :
    m.reset.automaton.run.current = m.graph.closure {m.automaton.start} :=
  Run.current_begin ..

/-- The machine after reading several symbols, whether they are in the alphabet or not. -/
def advanceAll (m : Machine) (ls : List Label) : Machine := ls.foldl advance m

theorem advanceAll_cons (l : Label) (ls : List Label) :
    m.advanceAll (l :: ls) = (m.advance l).advanceAll ls :=
  List.foldl_cons ..

/-- Reading several symbols touches no state. -/
theorem graph_advanceAll (ls : List Label) : (m.advanceAll ls).graph = m.graph := by
  induction ls generalizing m with
  | nil => rfl
  | cons l ls ih => exact ih (m := m.advance l)

theorem states_advanceAll (ls : List Label) :
    (m.advanceAll ls).automaton.states = m.automaton.states := by
  induction ls generalizing m with
  | nil => rfl
  | cons l ls ih => exact ih (m := m.advance l)

/-- Reading several symbols changes nothing but how far was read. -/
theorem onlyRead_advanceAll (hm : m.automaton.Sound m.graph) (ls : List Label) :
    m.OnlyRead (m.advanceAll ls) := by
  induction ls generalizing m with
  | nil => exact .refl hm
  | cons l ls ih =>
    have hfirst := onlyRead_advance hm l
    rw [advanceAll_cons]
    exact hfirst.trans (ih (hfirst.sound hm))

/-- A symbol outside the alphabet is on no edge, so it leads nowhere by itself. What the automaton
does with such a symbol is therefore the same as following its edges. -/
theorem after_eq (hm : m.automaton.Sound m.graph) {l : Label} (hl : l ≠ .epsilon) :
    m.after l = m.graph.closure (m.graph.targets m.automaton.run.current l) := by
  rw [after]
  by_cases hmem : l ∈ m.automaton.alphabet
  · rw [if_pos hmem]
  · rw [if_neg hmem]
    symm
    rw [OrdSet.eq_empty_iff]
    intro w hw
    obtain ⟨v, hv, _⟩ := mem_closure_iff.1 hw
    obtain ⟨u, hu, huv⟩ := mem_targets.1 hv
    exact hmem (hm.label_mem u (hm.current_mem u hu) l v huv hl)

/-- Reading several symbols is following them one by one from where the automaton was. By induction
on the word; the silent label is excluded, as no reading goes along a silent edge for it. -/
theorem current_advanceAll (hm : m.automaton.Sound m.graph) {ls : List Label}
    (hls : .epsilon ∉ ls) : (m.advanceAll ls).automaton.run.current =
      ls.foldl (fun vs l => m.graph.closure (m.graph.targets vs l))
        m.automaton.run.current := by
  induction ls generalizing m with
  | nil => rfl
  | cons l ls ih =>
    have hl : l ≠ .epsilon := fun h => hls (h ▸ List.mem_cons_self)
    have hrest : .epsilon ∉ ls := fun h => hls (List.mem_cons_of_mem l h)
    rw [advanceAll_cons, ih ((onlyRead_advance hm l).sound hm) hrest, current_advance,
      after_eq hm hl]
    rfl

/-- A word over the alphabet leads where the paths end that spell it, whatever is read on the edges
of the automaton. No structure is asked for here, because no symbol is outside the alphabet. -/
theorem current_advanceAll_reset {ls : List Label} (hls : ∀ l ∈ ls, l ∈ m.automaton.alphabet) :
    (m.reset.advanceAll ls).automaton.run.current = m.graph.ends {m.automaton.start} ls := by
  have hfold : ∀ (m : Machine) (ls : List Label), (∀ l ∈ ls, l ∈ m.automaton.alphabet) →
      (m.advanceAll ls).automaton.run.current =
        ls.foldl (fun vs l => m.graph.closure (m.graph.targets vs l)) m.automaton.run.current := by
    intro m ls hls
    induction ls generalizing m with
    | nil => rfl
    | cons l ls ih =>
      rw [List.forall_mem_cons] at hls
      rw [advanceAll_cons, ih (m.advance l) hls.2, current_advance, after, if_pos hls.1]
      rfl
  rw [hfold m.reset ls hls, reset, onAutomaton, Run.current_begin]
  rfl

/-- From nowhere no word leads anywhere: what was lost once stays lost. -/
theorem current_advanceAll_of_eq_empty (hm : m.automaton.run.current = ∅) (ls : List Label) :
    (m.advanceAll ls).automaton.run.current = ∅ := by
  induction ls generalizing m with
  | nil => exact hm
  | cons l ls ih =>
    rw [advanceAll_cons]
    apply ih
    rw [current_advance, after, hm]
    split
    · exact closure_targets_empty l
    · rfl

/-- A symbol outside the alphabet leads nowhere, and so does all that is read after it. This holds
of the silent label as well, which is in no alphabet. -/
theorem current_advanceAll_of_not_mem {ls : List Label} {l : Label} (hl : l ∈ ls)
    (hno : l ∉ m.automaton.alphabet) : (m.advanceAll ls).automaton.run.current = ∅ := by
  induction ls generalizing m with
  | nil => exact absurd hl List.not_mem_nil
  | cons k ls ih =>
    rw [advanceAll_cons]
    rcases List.mem_cons.1 hl with rfl | hl
    · apply current_advanceAll_of_eq_empty
      rw [current_advance, after, if_neg hno]
    · exact ih hl hno

/-- Read from the beginning, a word is accepted if it belongs to the language. A word over the
alphabet is read along paths; any other is read to nowhere, and it is not in the language either. -/
theorem isAccepting_advanceAll (hm : m.automaton.Sound m.graph) (ls : List Label) :
    (m.reset.advanceAll ls).isAccepting = true ↔ ls ∈ m.automaton.language m.graph := by
  have hreset := onlyRead_reset hm
  have hread := onlyRead_advanceAll (hreset.sound hm) ls
  rw [isAccepting, hread.graph_eq, hreset.graph_eq]
  by_cases hls : .epsilon ∈ ls
  · -- what reads nothing is no symbol of the alphabet, and on no path is it read
    have hcurrent := current_advanceAll_of_not_mem (m := m.reset) hls hm.epsilon_not_mem
    rw [hcurrent]
    constructor
    · intro h
      obtain ⟨v, hv, _⟩ := anyAccepting_iff.1 h
      exact absurd hv (OrdSet.not_mem_empty v)
    · rintro ⟨w, hpath, _⟩
      exact absurd hls hpath.epsilon_not_mem
  · have hcurrent : (m.reset.advanceAll ls).automaton.run.current =
        m.graph.ends {m.automaton.start} ls := by
      rw [current_advanceAll (hreset.sound hm) hls, reset, onAutomaton, Run.current_begin]
      rfl
    rw [hcurrent, Automaton.language, mem_languageFrom_iff hls]

end Machine

/-! ## The edits -/

namespace Edit

open Machine

variable {m : Machine}

/-- Starting over succeeds where the states were not handed over. -/
theorem reset_eq (hm : m.automaton.discarded = false) : Edit.reset m = .ok () m.reset := by
  simp only [reset, outcome_bind, live_eq_ok hm]
  rfl

/-- Whether a symbol may be read. -/
def Readable (a : Automaton) (l : Label) : Prop := l ∈ a.alphabet ∨ a.strict = false

instance (a : Automaton) (l : Label) : Decidable (Readable a l) :=
  inferInstanceAs (Decidable (_ ∨ _))

/-- The first symbol that may not be read. -/
def refused? (a : Automaton) (ls : List Label) : Option Label := ls.find? (¬Readable a ·)

/-- Nothing is refused exactly if every symbol may be read. -/
theorem refused?_eq_none {a : Automaton} {ls : List Label} :
    refused? a ls = none ↔ ∀ l ∈ ls, Readable a l := by
  simp [refused?]

/-- What a strict automaton may not read is outside its alphabet. One that is not strict may read
anything. -/
theorem refused?_of_strict {a : Automaton} (ha : a.strict = true) (ls : List Label) :
    refused? a ls = ls.find? (· ∉ a.alphabet) := by
  simp [refused?, Readable, ha]

/-- A symbol that may be read is read. -/
theorem readSymbol_eq (hm : m.automaton.discarded = false) {l : Label}
    (hl : Readable m.automaton l) : Edit.readSymbol l m = .ok () (m.advance l) := by
  have hno : ¬(l ∉ m.automaton.alphabet ∧ m.automaton.strict = true) := by
    rintro ⟨hmem, hstrict⟩
    rcases hl with hl | hl
    · exact hmem hl
    · rw [hl] at hstrict
      nomatch hstrict
  simp only [readSymbol, outcome_bind, live_eq_ok hm, outcome_get]
  rw [if_neg hno]
  rfl

/-- Any other is refused with the alphabet named, and the automaton stays where it was. -/
theorem readSymbol_refused (hm : m.automaton.discarded = false) {l : Label}
    (hl : ¬Readable m.automaton l) : Edit.readSymbol l m =
      .error (.unknownSymbol l m.automaton.alphabet.toList) m := by
  have hyes : l ∉ m.automaton.alphabet ∧ m.automaton.strict = true := by
    constructor
    · exact fun h => hl (Or.inl h)
    · cases hstrict : m.automaton.strict with
      | true => rfl
      | false => exact absurd (Or.inr hstrict) hl
  simp only [readSymbol, outcome_bind, live_eq_ok hm, outcome_get]
  rw [if_pos hyes]
  rfl

theorem read_cons_eq (l : Label) (ls : List Label) (m : Machine) :
    Edit.read (l :: ls) m = (Edit.readSymbol l >>= fun _ => Edit.read ls) m := rfl

/-- A word is read to the end if each of its symbols may be read. By induction: reading changes
neither the alphabet nor strictness, so what may be read stays the same. -/
theorem read_eq (hm : m.automaton.discarded = false) {ls : List Label}
    (hls : ∀ l ∈ ls, Readable m.automaton l) : Edit.read ls m = .ok () (m.advanceAll ls) := by
  induction ls generalizing m with
  | nil => rfl
  | cons l ls ih =>
    rw [read_cons_eq]
    simp only [outcome_bind, readSymbol_eq hm (hls l List.mem_cons_self)]
    exact ih (m := m.advance l) hm fun k hk => hls k (List.mem_cons_of_mem l hk)

/-- Words over the alphabet are read to the end, by strict automata as well as by others. -/
theorem reset_read_eq (hm : m.automaton.discarded = false) {word : List Label}
    (hword : ∀ l ∈ word, l ∈ m.automaton.alphabet) :
    (do reset; read word : Edit Unit) m = .ok () (m.reset.advanceAll word) := by
  have hread := read_eq (m := m.reset) hm fun l hl => Or.inl (hword l hl)
  simp only [outcome_bind, reset_eq hm, hread]

/-- What is read before the first symbol that may not be. -/
def readPart (a : Automaton) (ls : List Label) : List Label := ls.takeWhile (Readable a ·)

/-- Reading stops at the first symbol that may not be read, and names it. What came before it has
been read by then, and that stays. -/
theorem read_refused_eq (hm : m.automaton.discarded = false) {ls : List Label} {l : Label}
    (hls : refused? m.automaton ls = some l) : Edit.read ls m =
      .error (.unknownSymbol l m.automaton.alphabet.toList)
        (m.advanceAll (readPart m.automaton ls)) := by
  induction ls generalizing m with
  | nil => cases hls
  | cons k ls ih =>
    rw [read_cons_eq, readPart, List.takeWhile_cons]
    rw [refused?, List.find?_cons] at hls
    by_cases hk : Readable m.automaton k
    · simp only [hk, not_true_eq_false, decide_false] at hls
      simp only [outcome_bind, readSymbol_eq hm hk, hk, decide_true, if_true]
      exact ih (m := m.advance k) hm hls
    · simp only [hk, not_false_eq_true, decide_true] at hls
      obtain rfl := Option.some.inj hls
      simp only [outcome_bind, readSymbol_refused hm hk, hk, decide_false, Bool.false_eq_true,
        if_false]
      rfl

/-- How the reading of a word comes out that ends at a given machine. -/
def readOutcome (a : Automaton) (ls : List Label) (m : Machine) :
    EStateM.Result Fault Machine Unit :=
  match refused? a ls with
  | none => .ok () m
  | some l => .error (.unknownSymbol l a.alphabet.toList) m

/-- What may be read depends on the alphabet and on strictness only, and so do the part that is read
and the outcome. -/
theorem readable_congr {a b : Automaton} (halphabet : b.alphabet = a.alphabet)
    (hstrict : b.strict = a.strict) (l : Label) : Readable b l ↔ Readable a l := by
  rw [Readable, Readable, halphabet, hstrict]

theorem readPart_congr {a b : Automaton} (halphabet : b.alphabet = a.alphabet)
    (hstrict : b.strict = a.strict) (ls : List Label) : readPart b ls = readPart a ls :=
  congrArg (ls.takeWhile ·)
    (funext fun l => decide_eq_decide.2 (readable_congr halphabet hstrict l))

theorem readOutcome_congr {a b : Automaton} (halphabet : b.alphabet = a.alphabet)
    (hstrict : b.strict = a.strict) (ls : List Label) (m : Machine) :
    readOutcome b ls m = readOutcome a ls m := by
  have hrefused : refused? b ls = refused? a ls :=
    congrArg (ls.find? ·)
      (funext fun l => decide_eq_decide.2 (not_congr (readable_congr halphabet hstrict l)))
  rw [readOutcome, readOutcome, hrefused, halphabet]

/-- Any word is read from the beginning up to the first symbol that may not be read: one equation
for both outcomes. -/
theorem reset_read_eq_readOutcome (hm : m.automaton.discarded = false) (ls : List Label) :
    (do reset; read ls : Edit Unit) m =
      readOutcome m.automaton ls (m.reset.advanceAll (readPart m.automaton ls)) := by
  rw [readOutcome]
  simp only [outcome_bind, reset_eq hm]
  cases hls : refused? m.automaton ls with
  | none =>
    have hread := refused?_eq_none.1 hls
    have hpart : readPart m.automaton ls = ls :=
      List.takeWhile_eq_self_iff.2 fun l hl => decide_eq_true (hread l hl)
    rw [hpart]
    exact read_eq (m := m.reset) hm hread
  | some l => exact read_refused_eq (m := m.reset) hm hls

/-- Also a word that is refused is read without any change but how far was read. -/
theorem read_refused (hs : m.automaton.Sound m.graph) (hm : m.automaton.discarded = false)
    {ls : List Label} {l : Label} (hls : refused? m.automaton ls = some l) :
    ∃ m', Edit.read ls m = .error (.unknownSymbol l m.automaton.alphabet.toList) m' ∧
      m.OnlyRead m' :=
  ⟨_, read_refused_eq hm hls, onlyRead_advanceAll hs _⟩

/-- A word whose symbols may be read is found to be accepted exactly if it is in the language.
Finding out leaves the automaton where the word leads. -/
theorem accepts_spec (hs : m.automaton.Sound m.graph) (hm : m.automaton.discarded = false)
    {ls : List Label} (hread : ∀ l ∈ ls, Readable m.automaton l) :
    ∃ answer m', Edit.accepts ls m = .ok answer m' ∧ m.OnlyRead m' ∧
      (answer = true ↔ ls ∈ m.automaton.language m.graph) := by
  have hreset := onlyRead_reset hs
  refine ⟨(m.reset.advanceAll ls).isAccepting, m.reset.advanceAll ls, ?_, ?_, ?_⟩
  · simp only [accepts, outcome_bind, reset_eq hm, read_eq (m := m.reset) hm hread]
    rfl
  · exact hreset.trans (onlyRead_advanceAll (hreset.sound hs) ls)
  · exact isAccepting_advanceAll hs ls

/-- A word with a symbol that may not be read is refused at the first such symbol, and no answer is
given. -/
theorem accepts_refused (hs : m.automaton.Sound m.graph) (hm : m.automaton.discarded = false)
    {ls : List Label} {l : Label} (hls : refused? m.automaton ls = some l) :
    ∃ m', Edit.accepts ls m = .error (.unknownSymbol l m.automaton.alphabet.toList) m' ∧
      m.OnlyRead m' := by
  have hreset := onlyRead_reset hs
  obtain ⟨m', hread, hm'⟩ := read_refused (m := m.reset) (hreset.sound hs) hm hls
  refine ⟨m', ?_, hreset.trans hm'⟩
  simp only [accepts, outcome_bind, reset_eq hm, hread]
  rfl

end Edit

end PatternAutomata
