/-
What changes come to.

A change that may fail is opened step by step: for each kind of step an equation says what
it answers and which state it leaves behind. Work on an automaton begins by asking whether
its states were handed over, which they were not where it is spoken of here.
-/
import PatternAutomata.Automaton.Basic

set_option autoImplicit false

namespace PatternAutomata

section Steps

variable {ε σ α β : Type}

/-- A change goes on from what its first step leaves behind, unless that failed. A failure is passed
on with the state in which it happened: nothing is undone. -/
@[simp] theorem outcome_bind (x : EStateM ε σ α) (f : α → EStateM ε σ β) (s : σ) :
    (x >>= f) s = match x s with
      | .ok a s' => f a s'
      | .error e s' => .error e s' := rfl

/-- The same for what is to follow as a function of the state. -/
@[simp] theorem outcome_bind_fun (x : EStateM ε σ α) (f : α → σ → EStateM.Result ε σ β) (s : σ) :
    @bind (EStateM ε σ) _ α β x f s = match x s with
      | .ok a s' => f a s'
      | .error e s' => .error e s' := rfl

@[simp] theorem outcome_pure (a : α) (s : σ) : (pure a : EStateM ε σ α) s = .ok a s := rfl

@[simp] theorem outcome_get (s : σ) : (get : EStateM ε σ σ) s = .ok s s := rfl

@[simp] theorem outcome_set (s s' : σ) : (set s' : EStateM ε σ PUnit) s = .ok ⟨⟩ s' := rfl

/-- Changing the state answers nothing and cannot fail. With the other four equations every change
can be opened by simplification, one step after the other. -/
@[simp] theorem outcome_modify (f : σ → σ) (s : σ) :
    (modify f : EStateM ε σ PUnit) s = .ok ⟨⟩ (f s) := rfl

@[simp] theorem outcome_throw (e : ε) (s : σ) :
    (throw e : EStateM ε σ α) s = .error e s := rfl

/-- The steps of a computation that succeeds succeed. Proofs about a result take the computation
apart with this, so that the cases of failure never come up. -/
theorem exists_of_bind_eq_ok {x : Except ε α} {f : α → Except ε β} {r : β}
    (h : (x >>= f) = .ok r) : ∃ a, x = .ok a ∧ f a = .ok r := by
  cases x with
  | ok a => exact ⟨a, rfl, h⟩
  | error e => cases h

/-- What is made of a list one by one is made of its members: each result has a member of the list
that it was made of. By induction on the list, with the results taken apart along with it. -/
theorem exists_of_mem_mapM {f : α → Except ε β} {l : List α} {r : List β} (h : l.mapM f = .ok r) :
    ∀ b ∈ r, ∃ a ∈ l, f a = .ok b := by
  induction l generalizing r with
  | nil =>
    cases h
    exact fun b hb => absurd hb List.not_mem_nil
  | cons a l ih =>
    rw [List.mapM_cons] at h
    obtain ⟨c, hc, h⟩ := exists_of_bind_eq_ok h
    obtain ⟨rest, hrest, h⟩ := exists_of_bind_eq_ok h
    cases h
    intro b hb
    rcases List.mem_cons.1 hb with rfl | hb
    · exact ⟨a, List.mem_cons_self, hc⟩
    · obtain ⟨a', ha', hb'⟩ := ih hrest b hb
      exact ⟨a', List.mem_cons_of_mem a ha', hb'⟩

end Steps

variable {m : Machine}

/-- Whether the states were handed over is asked to no effect, where they were not. Each public
change asks this first, and nearly every statement here is about an automaton that still has its
states. -/
theorem Edit.live_eq_ok (hm : m.automaton.discarded = false) (operation : Operation) :
    Edit.live operation m = .ok () m := by
  rw [live, hm]
  rfl

/-- An automaton whose states were handed over refuses to be worked on. -/
theorem Edit.live_eq_error (hm : m.automaton.discarded = true) (operation : Operation) :
    Edit.live operation m = .error (.spent operation) m := by
  rw [live, if_pos hm]

end PatternAutomata
