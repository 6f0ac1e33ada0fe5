import Mathlib

/-!
# Stateful computations that may go wrong, and runs of them

`Preserves I op P` says that `op` keeps `I` in every case, also when it stops
in the middle; it is closed under sequencing.  `bind_ok` takes a sequence that
returned apart.  `Meets` takes a computation from a property to one where it
returns and others where it stops, `Leads` to a single one there.  `Gives` says
that it returns, and what, and `RunsAlike` that two computations do the same from
a property on.  `Follows` compares a computation that may stop early with a
script that has no result there.
`Run step` is a labelled run with its history, and `Run.invariant` carries an
invariant of history and state along it.
-/

set_option autoImplicit false

namespace DistrApp.Effects

universe u

section Preserves
variable {ε σ α β : Type u}

def stopped : EStateM.Result ε σ α → σ
  | .ok _ s => s
  | .error _ s => s

/-- `I` survives `op` in every case, and what `op` returns satisfies `P`. -/
def Preserves (I : σ → Prop) (op : EStateM ε σ α) (P : α → Prop) : Prop :=
  ∀ s, I s → I (stopped (op.run s)) ∧ ∀ a s', op.run s = .ok a s' → P a

variable {I : σ → Prop} {P : α → Prop} {Q : β → Prop}

theorem Preserves.pure {a : α} (here : P a) : Preserves I (pure a : EStateM ε σ α) P := by
  intro s inv
  refine ⟨inv, fun b s' ran => ?_⟩
  cases ran
  exact here

theorem Preserves.throw (e : ε) : Preserves I (throw e : EStateM ε σ α) P := by
  intro s inv
  exact ⟨inv, fun a s' ran => by cases ran⟩

theorem Preserves.bind {op : EStateM ε σ α} {next : α → EStateM ε σ β}
    (first : Preserves I op P) (second : ∀ a, P a → Preserves I (next a) Q) :
    Preserves I (op >>= next) Q := by
  intro s inv
  obtain ⟨after, returned⟩ := first s inv
  rw [EStateM.run_bind]
  cases ran : op.run s with
  | ok a middle =>
      rw [ran] at after
      exact second a (returned a middle ran) middle after
  | error e middle =>
      rw [ran] at after
      exact ⟨after, fun a s' absurdity => by cases absurdity⟩

theorem Preserves.ite {c : Prop} [Decidable c] {left right : EStateM ε σ α}
    (whenTrue : c → Preserves I left P) (whenFalse : ¬ c → Preserves I right P) :
    Preserves I (if c then left else right) P := by
  split
  · rename_i holds
    exact whenTrue holds
  · rename_i fails
    exact whenFalse fails

theorem Preserves.weaken {P' : α → Prop} {op : EStateM ε σ α} (weaker : ∀ a, P a → P' a)
    (preserves : Preserves I op P) : Preserves I op P' := by
  intro s inv
  obtain ⟨after, returned⟩ := preserves s inv
  exact ⟨after, fun a s' ran => weaker a (returned a s' ran)⟩

end Preserves

section Returns
variable {ε σ α β : Type u}

theorem bind_ok {op : EStateM ε σ α} {next : α → EStateM ε σ β} {s last : σ} {b : β} :
    (op >>= next).run s = .ok b last ↔
      ∃ a middle, op.run s = .ok a middle ∧ (next a).run middle = .ok b last := by
  rw [EStateM.run_bind]
  cases op.run s with
  | ok a middle =>
      constructor
      · intro ran; exact ⟨a, middle, rfl, ran⟩
      · rintro ⟨_, _, same, ran⟩
        cases same
        exact ran
  | error e middle =>
      constructor
      · intro ran; cases ran
      · rintro ⟨_, _, absurdity, _⟩; cases absurdity

theorem pure_ok {s last : σ} {a b : α} :
    (pure a : EStateM ε σ α).run s = .ok b last ↔ b = a ∧ last = s := by
  constructor
  · intro ran; cases ran; exact ⟨rfl, rfl⟩
  · rintro ⟨rfl, rfl⟩; rfl

end Returns

section Meets
variable {ε σ α β : Type u}

/-- From `P`, `op` returns with `Q`, or stops with `e` and `E e`. -/
def Meets (P : σ → Prop) (op : EStateM ε σ α) (Q : α → σ → Prop) (E : ε → σ → Prop) : Prop :=
  ∀ s, P s → match op.run s with
    | .ok a s' => Q a s'
    | .error e s' => E e s'

variable {P : σ → Prop} {Q : α → σ → Prop} {R : β → σ → Prop} {E : ε → σ → Prop}

theorem Meets.pure {a : α} (here : ∀ s, P s → Q a s) :
    Meets P (pure a : EStateM ε σ α) Q E := here

theorem Meets.throw {e : ε} (here : ∀ s, P s → E e s) :
    Meets P (throw e : EStateM ε σ α) Q E := here

theorem Meets.bind {op : EStateM ε σ α} {next : α → EStateM ε σ β} (first : Meets P op Q E)
    (second : ∀ a, Meets (Q a) (next a) R E) : Meets P (op >>= next) R E := by
  intro s before
  have middle := first s before
  rw [EStateM.run_bind]
  cases ran : op.run s with
  | ok a s' =>
      rw [ran] at middle
      exact second a s' middle
  | error e s' =>
      rw [ran] at middle
      exact middle

theorem Meets.ite {c : Prop} [Decidable c] {left right : EStateM ε σ α}
    (whenTrue : c → Meets P left Q E) (whenFalse : ¬ c → Meets P right Q E) :
    Meets P (if c then left else right) Q E := by
  split
  · rename_i holds
    exact whenTrue holds
  · rename_i fails
    exact whenFalse fails

theorem Meets.consequence {P' : σ → Prop} {Q' : α → σ → Prop} {E' : ε → σ → Prop}
    {op : EStateM ε σ α} (meets : Meets P op Q E) (stronger : ∀ s, P' s → P s)
    (weaker : ∀ a s, Q a s → Q' a s) (allowed : ∀ e s, E e s → E' e s) : Meets P' op Q' E' := by
  intro s before
  have after := meets s (stronger s before)
  cases ran : op.run s with
  | ok a s' =>
      rw [ran] at after
      exact weaker a s' after
  | error e s' =>
      rw [ran] at after
      exact allowed e s' after

theorem Meets.of_stopped {D : σ → Prop} {op : EStateM ε σ α}
    (after : ∀ s, P s → D (Effects.stopped (op.run s))) : Meets P op (fun _ => D) fun _ => D := by
  intro s before
  have here := after s before
  cases ran : op.run s with
  | ok a s' =>
      rw [ran] at here
      exact here
  | error e s' =>
      rw [ran] at here
      exact here

theorem Meets.returned {op : EStateM ε σ α} (meets : Meets P op Q E) {s s' : σ} {a : α}
    (before : P s) (ran : op.run s = .ok a s') : Q a s' := by
  have after := meets s before
  rw [ran] at after
  exact after

theorem Meets.threw {op : EStateM ε σ α} (meets : Meets P op Q E) {s s' : σ} {e : ε}
    (before : P s) (ran : op.run s = .error e s') : E e s' := by
  have after := meets s before
  rw [ran] at after
  exact after

theorem Preserves.meets {I : σ → Prop} {T : α → Prop} {op : EStateM ε σ α}
    (preserves : Preserves I op T) : Meets I op (fun _ => I) fun _ => I :=
  Meets.of_stopped fun s inv => (preserves s inv).1

end Meets

section Gives
variable {ε σ α β : Type u}

/-- From `P`, `op` returns something that satisfies `T`, and then `Q` holds. -/
def Finds (P : σ → Prop) (op : EStateM ε σ α) (T : α → Prop) (Q : σ → Prop) : Prop :=
  ∀ s, P s → ∃ a s', op.run s = .ok a s' ∧ T a ∧ Q s'

def Gives (P : σ → Prop) (op : EStateM ε σ α) (a : α) (Q : σ → Prop) : Prop :=
  ∀ s, P s → ∃ s', op.run s = .ok a s' ∧ Q s'

def NeverReturns (P : σ → Prop) (op : EStateM ε σ α) : Prop :=
  ∀ s, P s → ∃ e s', op.run s = .error e s'

variable {P Q R : σ → Prop} {T : α → Prop} {op : EStateM ε σ α} {next : α → EStateM ε σ β}
  {a : α} {b : β}

theorem Finds.gives (first : Finds P op T Q) (second : ∀ a, T a → Gives Q (next a) b R) :
    Gives P (op >>= next) b R := by
  intro s before
  obtain ⟨a, middle, ran, found, between⟩ := first s before
  obtain ⟨last, ran', after⟩ := second a found middle between
  exact ⟨last, bind_ok.mpr ⟨a, middle, ran, ran'⟩, after⟩

theorem Finds.neverReturns (first : Finds P op T Q) (second : ∀ a, T a → NeverReturns Q (next a)) :
    NeverReturns P (op >>= next) := by
  intro s before
  obtain ⟨a, middle, ran, found, between⟩ := first s before
  obtain ⟨e, s', stopped⟩ := second a found middle between
  refine ⟨e, s', ?_⟩
  rw [EStateM.run_bind, ran]
  exact stopped

theorem Gives.finds (gives : Gives P op a Q) : Finds P op (· = a) Q := by
  intro s before
  obtain ⟨s', ran, after⟩ := gives s before
  exact ⟨a, s', ran, rfl, after⟩

theorem Gives.pure (a : α) : Gives P (pure a : EStateM ε σ α) a P := fun s before =>
  ⟨s, rfl, before⟩

theorem Gives.bind (first : Gives P op a Q) (second : Gives Q (next a) b R) :
    Gives P (op >>= next) b R :=
  first.finds.gives fun _ same => same ▸ second

theorem Gives.neverReturns (first : Gives P op a Q) (second : NeverReturns Q (next a)) :
    NeverReturns P (op >>= next) :=
  first.finds.neverReturns fun _ same => same ▸ second

theorem NeverReturns.throw (e : ε) : NeverReturns P (throw e : EStateM ε σ α) := fun s _ =>
  ⟨e, s, rfl⟩

theorem NeverReturns.bind (first : NeverReturns P op) : NeverReturns P (op >>= next) := by
  intro s before
  obtain ⟨e, s', ran⟩ := first s before
  refine ⟨e, s', ?_⟩
  rw [EStateM.run_bind, ran]

end Gives

section Leads
variable {ε σ α β : Type u}

/-- From `P`, `op` returns with `Q` or stops with `E`. -/
def Leads (P : σ → Prop) (op : EStateM ε σ α) (Q : α → σ → Prop) (E : σ → Prop) : Prop :=
  ∀ s, P s → match op.run s with
    | .ok a s' => Q a s'
    | .error _ s' => E s'

variable {P : σ → Prop} {Q : α → σ → Prop} {R : β → σ → Prop} {E : σ → Prop}

theorem leads_iff_meets {op : EStateM ε σ α} : Leads P op Q E ↔ Meets P op Q fun _ => E := Iff.rfl

theorem Leads.pure {a : α} (here : ∀ s, P s → Q a s) :
    Leads P (pure a : EStateM ε σ α) Q E := here

theorem Leads.throw {e : ε} (here : ∀ s, P s → E s) :
    Leads P (throw e : EStateM ε σ α) Q E := here

theorem Leads.bind {op : EStateM ε σ α} {next : α → EStateM ε σ β} (first : Leads P op Q E)
    (second : ∀ a, Leads (Q a) (next a) R E) : Leads P (op >>= next) R E :=
  leads_iff_meets.mpr (Meets.bind (leads_iff_meets.mp first) second)

theorem Leads.ite {c : Prop} [Decidable c] {left right : EStateM ε σ α}
    (whenTrue : Leads P left Q E) (whenFalse : Leads P right Q E) :
    Leads P (if c then left else right) Q E :=
  leads_iff_meets.mpr (Meets.ite (fun _ => whenTrue) fun _ => whenFalse)

theorem Leads.consequence {P' : σ → Prop} {Q' : α → σ → Prop} {op : EStateM ε σ α}
    (leads : Leads P op Q E) (stronger : ∀ s, P' s → P s) (weaker : ∀ a s, Q a s → Q' a s) :
    Leads P' op Q' E :=
  leads_iff_meets.mpr (Meets.consequence (leads_iff_meets.mp leads) stronger weaker
    fun _ _ stops => stops)

theorem Preserves.leads {I : σ → Prop} {T : α → Prop} {op : EStateM ε σ α}
    (preserves : Preserves I op T) (allowed : ∀ s, I s → E s) : Leads I op (fun _ => I) E :=
  leads_iff_meets.mpr (Meets.consequence preserves.meets (fun _ inv => inv)
    (fun _ _ inv => inv) fun _ => allowed)

theorem Leads.stopped {op : EStateM ε σ α} (leads : Leads P op (fun _ => E) E) {s : σ}
    (before : P s) : E (stopped (op.run s)) := by
  have after := leads s before
  cases ran : op.run s with
  | ok a s' =>
      rw [ran] at after
      exact after
  | error e s' =>
      rw [ran] at after
      exact after

end Leads

section RunsAlike
variable {ε σ α β : Type u}

/-- From `P` two computations give the same result. -/
def RunsAlike (P : σ → Prop) (op op' : EStateM ε σ α) : Prop := ∀ s, P s → op.run s = op'.run s

variable {P : σ → Prop} {Q : α → σ → Prop} {E : ε → σ → Prop}

theorem RunsAlike.refl (op : EStateM ε σ α) : RunsAlike P op op := fun _ _ => rfl

theorem RunsAlike.bind {op : EStateM ε σ α} {next next' : α → EStateM ε σ β}
    (first : Meets P op Q E) (second : ∀ a, RunsAlike (Q a) (next a) (next' a)) :
    RunsAlike P (op >>= next) (op >>= next') := by
  intro s before
  have middle := first s before
  rw [EStateM.run_bind, EStateM.run_bind]
  cases ran : op.run s with
  | ok a s' =>
      rw [ran] at middle
      exact second a s' middle
  | error e s' => rfl

end RunsAlike

section Follows
variable {ε σ α β γ δ : Type u}

/-- Where `op` returns, the script has a result related to it; where `op` stops
with `early`, it has none. -/
def Follows (early : ε) (op : EStateM ε σ α) (s : σ) (script : Option β)
    (Q : α → σ → β → Prop) : Prop :=
  (∀ a s', op.run s = .ok a s' → ∃ b, script = some b ∧ Q a s' b) ∧
    ∀ s', op.run s = .error early s' → script = none

variable {early : ε} {s : σ} {Q : α → σ → β → Prop} {R : γ → σ → δ → Prop}

theorem Follows.pure {a : α} {b : β} (related : Q a s b) :
    Follows early (pure a) s (some b) Q := by
  refine ⟨fun a' s' ran => ?_, fun s' ran => by cases ran⟩
  cases ran
  exact ⟨b, rfl, related⟩

theorem Follows.stops : Follows early (throw early) s (none : Option β) Q :=
  ⟨fun a s' ran => (by cases ran), fun _ _ => rfl⟩

theorem Follows.bind {op : EStateM ε σ α} {next : α → EStateM ε σ γ} {script : Option β}
    {rest : β → Option δ} (first : Follows early op s script Q)
    (second : ∀ a s' b, Q a s' b → Follows early (next a) s' (rest b) R) :
    Follows early (op >>= next) s (script >>= rest) R := by
  constructor
  · intro c last ran
    obtain ⟨a, middle, one, two⟩ := bind_ok.mp ran
    obtain ⟨b, rfl, related⟩ := first.1 a middle one
    exact (second a middle b related).1 c last two
  · intro last ran
    rw [EStateM.run_bind] at ran
    cases one : op.run s with
    | ok a middle =>
        rw [one] at ran
        obtain ⟨b, rfl, related⟩ := first.1 a middle one
        exact (second a middle b related).2 last ran
    | error e middle =>
        rw [one] at ran
        cases ran
        rw [first.2 last one]
        rfl

theorem Follows.after {op : EStateM ε σ α} {next : α → EStateM ε σ γ} {rest : Option δ} {a : α}
    {s' : σ} (ran : op.run s = .ok a s') (second : Follows early (next a) s' rest R) :
    Follows early (op >>= next) s rest R := by
  rw [Follows, EStateM.run_bind, ran]
  exact second

theorem Follows.ends {op : EStateM ε σ α} {next : α → EStateM ε σ γ} {s' : σ}
    (ran : op.run s = .error early s') :
    Follows early (op >>= next) s (none : Option δ) R := by
  rw [Follows, EStateM.run_bind, ran]
  exact ⟨fun c last absurdity => (by cases absurdity), fun _ _ => rfl⟩

/-- A first half that stops in another way is not compared with the script. -/
theorem Follows.aside {op : EStateM ε σ α} {next : α → EStateM ε σ γ} {script : Option δ} {e : ε}
    {s' : σ} (ran : op.run s = .error e s') (different : e ≠ early) :
    Follows early (op >>= next) s script R := by
  rw [Follows, EStateM.run_bind, ran]
  refine ⟨fun c last absurdity => (by cases absurdity), fun last same => ?_⟩
  cases same
  exact absurd rfl different

theorem Follows.skip {op : EStateM ε σ α} {next : α → EStateM ε σ γ} {rest : Option δ}
    (through : ∀ s', op.run s ≠ .error early s')
    (second : ∀ a s', op.run s = .ok a s' → Follows early (next a) s' rest R) :
    Follows early (op >>= next) s rest R := by
  constructor
  · intro c last ran
    obtain ⟨a, middle, one, two⟩ := bind_ok.mp ran
    exact (second a middle one).1 c last two
  · intro last ran
    rw [EStateM.run_bind] at ran
    cases one : op.run s with
    | ok a middle =>
        rw [one] at ran
        exact (second a middle one).2 last ran
    | error e middle =>
        rw [one] at ran
        cases ran
        exact absurd one (through last)

end Follows

section Run
variable {σ ι : Type u}

/-- A run from `s`, its labels in order. -/
inductive Run (step : σ → ι → σ → Prop) (s : σ) : List ι → σ → Prop
  | start : Run step s [] s
  | next {history : List ι} {middle last : σ} {label : ι} :
      Run step s history middle → step middle label last → Run step s (history ++ [label]) last

variable {step : σ → ι → σ → Prop}

theorem Run.invariant {P : List ι → σ → Prop} {s last : σ} {history : List ι}
    (initially : P [] s)
    (preserved : ∀ {past middle label later}, P past middle → step middle label later →
      P (past ++ [label]) later)
    (run : Run step s history last) : P history last := by
  induction run with
  | start => exact initially
  | next _ one ih => exact preserved ih one

theorem Run.mono {step' : σ → ι → σ → Prop} {s last : σ} {history : List ι}
    (weaker : ∀ {middle label later}, step middle label later → step' middle label later)
    (run : Run step s history last) : Run step' s history last := by
  induction run with
  | start => exact Run.start
  | next _ one ih => exact Run.next ih (weaker one)

theorem Run.cons {s middle last : σ} {label : ι} {history : List ι} (one : step s label middle)
    (run : Run step middle history last) : Run step s (label :: history) last := by
  induction run with
  | start => exact Run.next Run.start one
  | next _ step ih => exact Run.next ih step

/-- A measure that every step brings down, but for the cost of its label, bounds
the length of a run. -/
theorem Run.ranked {rank : σ → Nat} {cost : ι → Nat} {s last : σ} {history : List ι}
    (drops : ∀ {middle label later}, step middle label later →
      rank later < rank middle + cost label)
    (run : Run step s history last) :
    history.length + rank last ≤ rank s + (history.map cost).sum := by
  induction run with
  | start => simp
  | next _ one ih =>
      have lower := drops one
      simp only [List.length_append, List.map_append, List.sum_append, List.length_singleton,
        List.map_singleton, List.sum_singleton]
      omega

def Stuck (step : σ → ι → σ → Prop) (s : σ) : Prop := ∀ label s', ¬ step s label s'

/-- If no run is longer than `bound`, some run gets stuck. -/
theorem exists_stuck {s : σ} {bound : Nat}
    (bounded : ∀ history last, Run step s history last → history.length ≤ bound) :
    ∃ history last, Run step s history last ∧ Stuck step last := by
  by_contra free
  have goesOn : ∀ history last, Run step s history last →
      ∃ label later, Run step s (history ++ [label]) later := by
    intro history last run
    by_contra ends
    refine free ⟨history, last, run, fun label later one => ?_⟩
    exact ends ⟨label, later, Run.next run one⟩
  have any_length : ∀ n, ∃ history last, Run step s history last ∧ history.length = n := by
    intro n
    induction n with
    | zero => exact ⟨[], s, Run.start, rfl⟩
    | succ n ih =>
        obtain ⟨history, last, run, rfl⟩ := ih
        obtain ⟨label, later, longer⟩ := goesOn history last run
        exact ⟨_, later, longer, by simp⟩
  obtain ⟨history, last, run, long⟩ := any_length (bound + 1)
  have short := bounded history last run
  omega

end Run
end DistrApp.Effects
