import DistrApp.Library.Effects

/-!
# Sections over a shared store

Threads run sections on states of which one part is shared, the others are a
thread's own.  A section may be cut into pieces anywhere, and between two pieces
the shared part may change.  `serial_move`: while nobody enters a section that
another thread is in, the sections that have ended are those of threads that ran
one after the other, each from its first line to its last on what the one before
it left; a section under way will end as it would have ended alone.
-/

set_option autoImplicit false

namespace DistrApp.Sections

open Effects

/-- The threads `ι`, what each of them runs and on what, and the part `σ` of
their states `π` that they share. -/
structure Family (ι ε π σ : Type) where
  get : π → σ
  put : π → σ → π
  put_get : ∀ p, put p (get p) = p
  start : ι → σ → π
  get_start : ∀ i s, get (start i s) = s
  body : ι → EStateM ε π Unit

/-- A section under way: the thread's state when it last ran, and what is left. -/
structure Running (ε π : Type) where
  own : π
  rest : EStateM ε π Unit

structure Pool (ι ε π σ : Type) where
  shared : σ
  inside : ι → Option (Running ε π)
  ended : List (ι × EStateM.Result ε π Unit)

inductive Event (ι ε π : Type)
  | enters (i : ι)
  | advances (i : ι)
  | ends (i : ι) (result : EStateM.Result ε π Unit)

variable {ι ε π σ : Type}

def Pool.initial (s : σ) : Pool ι ε π σ := ⟨s, fun _ => none, []⟩

def Pool.Empty (p : Pool ι ε π σ) : Prop := ∀ i, p.inside i = none

structure Pool.Only (p : Pool ι ε π σ) (i : ι) (r : Running ε π) : Prop where
  here : p.inside i = some r
  elsewhere : ∀ j, j ≠ i → p.inside j = none

theorem Pool.Only.same {p : Pool ι ε π σ} {i j : ι} {r r' : Running ε π} (only : p.Only i r)
    (inside : p.inside j = some r') : j = i ∧ r' = r := by
  by_cases same : j = i
  · subst same
    rw [only.here] at inside
    exact ⟨rfl, (Option.some.inj inside).symm⟩
  · rw [only.elsewhere j same] at inside
    cases inside

variable [DecidableEq ι] (F : Family ι ε π σ)

/-- One move of one thread on what is shared now. -/
inductive Move (p : Pool ι ε π σ) : Event ι ε π → Pool ι ε π σ → Prop
  | enters (i : ι) : p.inside i = none →
      Move p (.enters i)
        { p with inside := Function.update p.inside i (some ⟨F.start i p.shared, F.body i⟩) }
  | advances (i : ι) (r : Running ε π) {α : Type} (first : EStateM ε π α)
      (next : α → EStateM ε π Unit) (a : α) (after : π) :
      p.inside i = some r → r.rest = first >>= next →
      first.run (F.put r.own p.shared) = .ok a after →
      Move p (.advances i)
        { p with
          shared := F.get after
          inside := Function.update p.inside i (some ⟨after, next a⟩) }
  | ends (i : ι) (r : Running ε π) (result : EStateM.Result ε π Unit) :
      p.inside i = some r → r.rest.run (F.put r.own p.shared) = result →
      Move p (.ends i result)
        { shared := F.get (stopped result)
          inside := Function.update p.inside i none
          ended := p.ended ++ [(i, result)] }

/-- What the section of `i` does by itself where the shared part is `s`. -/
def Family.alone (i : ι) (s : σ) : EStateM.Result ε π Unit :=
  (F.body i).run (F.start i s)

/-- Whole sections one after the other, from `s`. -/
inductive InTurn (s : σ) : List (ι × EStateM.Result ε π Unit) → σ → Prop
  | nobody : InTurn s [] s
  | next {ended : List (ι × EStateM.Result ε π Unit)} {middle : σ} (i : ι) :
      InTurn s ended middle →
      InTurn s (ended ++ [(i, F.alone i middle)]) (F.get (stopped (F.alone i middle)))

/-- Nobody is inside, or one thread, which will end as it would have ended alone
on what the others left. -/
structure Serial (start : σ) (p : Pool ι ε π σ) (last : σ) : Prop where
  inTurn : InTurn F start p.ended last
  phase : p.Empty ∧ p.shared = last ∨
    ∃ i r, p.Only i r ∧ r.rest.run (F.put r.own p.shared) = F.alone i last

variable {F}

omit [DecidableEq ι] in
theorem serial_initial (s : σ) : Serial F s (Pool.initial s) s :=
  ⟨.nobody, Or.inl ⟨fun _ => rfl, rfl⟩⟩

omit [DecidableEq ι] in
theorem Serial.only {start last : σ} {p : Pool ι ε π σ} (serial : Serial F start p last) {i : ι}
    {r : Running ε π} (inside : p.inside i = some r) :
    p.Only i r ∧ r.rest.run (F.put r.own p.shared) = F.alone i last := by
  rcases serial.phase with ⟨empty, _⟩ | ⟨j, r', only, whole⟩
  · rw [empty i] at inside
    cases inside
  · obtain ⟨rfl, rfl⟩ := only.same inside
    exact ⟨only, whole⟩

omit [DecidableEq ι] in
theorem Serial.idle {start last : σ} {p : Pool ι ε π σ} (serial : Serial F start p last)
    (empty : p.Empty) : p.shared = last := by
  rcases serial.phase with ⟨_, same⟩ | ⟨i, r, only, _⟩
  · exact same
  · have here := only.here
    rw [empty i] at here
    cases here

/-- What the last section of a list leaves, from `s`. -/
def Family.leaves (F : Family ι ε π σ) (s : σ) (ended : List (ι × EStateM.Result ε π Unit)) : σ :=
  match ended.getLast? with
  | none => s
  | some e => F.get (stopped e.2)

omit [DecidableEq ι] in
theorem InTurn.leaves {s last : σ} {ended : List (ι × EStateM.Result ε π Unit)}
    (inTurn : InTurn F s ended last) : last = F.leaves s ended := by
  cases inTurn with
  | nobody => rfl
  | next i earlier => rw [Family.leaves, List.getLast?_concat]

omit [DecidableEq ι] in
theorem InTurn.at {s last : σ} {ended before after : List (ι × EStateM.Result ε π Unit)} {i : ι}
    {result : EStateM.Result ε π Unit} (inTurn : InTurn F s ended last)
    (split : ended = before ++ (i, result) :: after) :
    ∃ middle, InTurn F s before middle ∧ result = F.alone i middle := by
  induction inTurn generalizing after with
  | nobody => simp at split
  | @next past middle j earlier ih =>
      rcases List.eq_nil_or_concat after with rfl | ⟨others, last, rfl⟩
      · obtain ⟨rfl, here⟩ := List.append_inj' split rfl
        cases here
        exact ⟨middle, earlier, rfl⟩
      · rw [List.concat_eq_append, ← List.cons_append, ← List.append_assoc] at split
        exact ih (List.append_inj' split rfl).1

theorem only_update {inside : ι → Option (Running ε π)} {i : ι}
    (elsewhere : ∀ j, j ≠ i → inside j = none) (s : σ) (r : Running ε π)
    (ended : List (ι × EStateM.Result ε π Unit)) :
    Pool.Only ⟨s, Function.update inside i (some r), ended⟩ i r :=
  ⟨Function.update_self i _ inside, fun j different =>
    (Function.update_of_ne different _ inside).trans (elsewhere j different)⟩

theorem empty_update {inside : ι → Option (Running ε π)} {i : ι}
    (elsewhere : ∀ j, j ≠ i → inside j = none) (s : σ)
    (ended : List (ι × EStateM.Result ε π Unit)) :
    Pool.Empty ⟨s, Function.update inside i none, ended⟩ := by
  intro j
  by_cases same : j = i
  · rw [same]
    exact Function.update_self i none inside
  · exact (Function.update_of_ne same none inside).trans (elsewhere j same)

/-- A move keeps the sections serial unless somebody enters while another is inside. -/
theorem serial_move {start last : σ} {p p' : Pool ι ε π σ} {event : Event ι ε π}
    (serial : Serial F start p last) (move : Move F p event p')
    (alone : ∀ i, event = .enters i → p.Empty) : ∃ last', Serial F start p' last' := by
  cases move with
  | enters i outside =>
      have empty := alone i rfl
      refine ⟨last, serial.inTurn, Or.inr ⟨i, _, only_update (fun j _ => empty j) _ _ _, ?_⟩⟩
      have entered := F.put_get (F.start i p.shared)
      rw [F.get_start] at entered
      simp only [Family.alone]
      rw [entered, serial.idle empty]
  | advances i r first next a after here split ran =>
      obtain ⟨only, whole⟩ := serial.only here
      refine ⟨last, serial.inTurn, Or.inr ⟨i, _, only_update only.elsewhere _ _ _, ?_⟩⟩
      rw [split, EStateM.run_bind, ran] at whole
      simp only
      rw [F.put_get]
      exact whole
  | ends i r result here ran =>
      obtain ⟨only, whole⟩ := serial.only here
      rw [ran] at whole
      subst whole
      exact ⟨_, .next i serial.inTurn, Or.inl ⟨empty_update only.elsewhere _ _, rfl⟩⟩

end DistrApp.Sections
