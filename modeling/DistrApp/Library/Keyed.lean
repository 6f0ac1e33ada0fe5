import Mathlib

/-!
# Requests that concern one key

A service keeps a state for each key, and each request is about one of them: it
is answered from what is kept there, and changes only that.  Then what is kept
under a key, and what is said to those who ask about it, comes from the requests
about that key alone, wherever the others stand among them.
-/

set_option autoImplicit false

namespace DistrApp.Keyed

/-- What a request `ε` does to the state `σ` of its key, and the answer `ω`. -/
structure Machine (κ ε σ ω : Type) where
  key : ε → κ
  next : ε → σ → σ
  tells : ε → σ → ω

namespace Machine
variable {κ ε σ ω : Type} [DecidableEq κ] (M : Machine κ ε σ ω)

def apply (m : κ → σ) (e : ε) : κ → σ := Function.update m (M.key e) (M.next e (m (M.key e)))

def after (m : κ → σ) (past : List ε) : κ → σ := past.foldl M.apply m

def answer (m : κ → σ) (past : List ε) (e : ε) : ω := M.tells e (M.after m past (M.key e))

def about (k : κ) (past : List ε) : List ε := past.filter fun e => M.key e = k

variable {M} {m : κ → σ} {past : List ε} {e : ε}

theorem after_append (past later : List ε) :
    M.after m (past ++ later) = M.after (M.after m past) later := List.foldl_append

theorem after_snoc (past : List ε) (e : ε) :
    M.after m (past ++ [e]) = M.apply (M.after m past) e := by
  rw [after_append]
  rfl

theorem apply_self (m : κ → σ) (e : ε) : M.apply m e (M.key e) = M.next e (m (M.key e)) :=
  Function.update_self ..

theorem apply_of_ne {k : κ} (other : k ≠ M.key e) : M.apply m e k = m k :=
  Function.update_of_ne other ..

/-- The state of a key goes through the requests about it. -/
theorem after_eq_foldl (k : κ) (past : List ε) :
    M.after m past k = (M.about k past).foldl (fun a e => M.next e a) (m k) := by
  induction past using List.reverseRecOn with
  | nil => rfl
  | append_singleton past e ih =>
      rw [after_snoc, about, List.filter_append, List.foldl_append, ← about, ← ih]
      by_cases own : M.key e = k
      · subst own
        rw [apply_self]
        simp
      · rw [apply_of_ne (Ne.symm own)]
        simp [own]

/-- Who asks about a key hears nothing of the requests about other keys. -/
theorem answer_congr {m' : κ → σ} {past' : List ε} (same : m (M.key e) = m' (M.key e))
    (own : M.about (M.key e) past = M.about (M.key e) past') :
    M.answer m past e = M.answer m' past' e := by
  rw [answer, answer, after_eq_foldl, after_eq_foldl, same, own]

end Machine

end DistrApp.Keyed
