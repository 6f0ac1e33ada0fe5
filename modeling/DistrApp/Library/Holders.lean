import Mathlib

/-!
# A table of what is held

Each of some clients holds at most one place, under a key, and a table gives for
each key the place under it.  The two agree if the table lists what is held and
no key is held by two clients.  They still do when a client takes a key that is
free, or gives its own up, and the table changes with it.
-/

set_option autoImplicit false

namespace DistrApp.Holders

open Function (update)

variable {ι κ π : Type}

/-- The table lists what is held, each key from one client. -/
structure Lists (table : κ → Option π) (held : ι → Option (κ × π)) : Prop where
  listed : ∀ k p, table k = some p ↔ ∃ i, held i = some (k, p)
  one : ∀ i j k p q, held i = some (k, p) → held j = some (k, q) → i = j

theorem lists_nobody : Lists (fun _ : κ => (none : Option π)) (fun _ : ι => none) := by
  refine ⟨fun k p => iff_of_false (by simp) ?_, fun i j k p q absurdity => by cases absurdity⟩
  rintro ⟨i, absurdity⟩
  cases absurdity

theorem update_eq_some {α β : Type} [DecidableEq α] {f : α → Option β} {a b : α} {x : Option β}
    {y : β} : update f a x b = some y ↔ b = a ∧ x = some y ∨ b ≠ a ∧ f b = some y := by
  by_cases own : b = a
  · simp [own]
  · simp [own]

namespace Lists
variable {table : κ → Option π} {held : ι → Option (κ × π)} {i j : ι} {k : κ} {p q : π}

theorem of_held (lists : Lists table held) (own : held i = some (k, p)) : table k = some p :=
  (lists.listed k p).mpr ⟨i, own⟩

theorem ne_of_free (lists : Lists table held) (free : table k = none) : held i ≠ some (k, p) := by
  intro own
  rw [lists.of_held own] at free
  cases free

variable [DecidableEq ι] [DecidableEq κ]

theorem take (lists : Lists table held) (free : table k = none) (idle : held i = none) (p : π) :
    Lists (update table k (some p)) (update held i (some (k, p))) := by
  constructor
  · intro l q
    simp only [update_eq_some, lists.listed]
    constructor
    · rintro (⟨rfl, same⟩ | ⟨other, j, here⟩)
      · exact ⟨i, Or.inl ⟨rfl, by rw [Option.some.inj same]⟩⟩
      · refine ⟨j, Or.inr ⟨?_, here⟩⟩
        rintro rfl
        rw [idle] at here
        cases here
    · rintro ⟨j, ⟨_, same⟩ | ⟨_, here⟩⟩
      · cases same
        exact Or.inl ⟨rfl, rfl⟩
      · refine Or.inr ⟨?_, j, here⟩
        rintro rfl
        exact lists.ne_of_free free here
  · intro a b l q r first second
    rcases update_eq_some.mp first with ⟨rfl, same⟩ | ⟨_, here⟩ <;>
      rcases update_eq_some.mp second with ⟨rfl, same'⟩ | ⟨_, here'⟩
    · rfl
    · cases same
      exact absurd here' (lists.ne_of_free free)
    · cases same'
      exact absurd here (lists.ne_of_free free)
    · exact lists.one _ _ _ _ _ here here'

theorem give (lists : Lists table held) (own : held i = some (k, p)) :
    Lists (update table k none) (update held i none) := by
  constructor
  · intro l q
    simp only [update_eq_some, lists.listed, reduceCtorEq, and_false, false_or]
    constructor
    · rintro ⟨other, j, here⟩
      refine ⟨j, ?_, here⟩
      rintro rfl
      rw [own] at here
      cases here
      exact other rfl
    · rintro ⟨j, other, here⟩
      refine ⟨?_, j, here⟩
      rintro rfl
      exact other (lists.one _ _ _ _ _ here own)
  · intro a b l q r first second
    simp only [update_eq_some, reduceCtorEq, and_false, false_or] at first second
    exact lists.one _ _ _ _ _ first.2 second.2

end Lists

end DistrApp.Holders
