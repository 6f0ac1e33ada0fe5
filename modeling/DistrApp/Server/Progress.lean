import DistrApp.Library.Effects
import DistrApp.Server.AcceptLoop

/-!
# main gets back to accept

While `main` waits for its newest handler some thread can always go on, unless a
handler has returned early: the flag is never cleared for nothing, since the
signal of a handler that has cleared it is still to come.  A measure of what is
left falls with every step but a wake-up without a signal, so that the number of
steps until `main` accepts again is bounded by these wake-ups.
-/

set_option autoImplicit false

namespace DistrApp.Server.AcceptLoop

open Effects

def Spurious (s s' : State) : Prop :=
  s.main = .waiting ∧ s' = { s with main := .relocking }

def Returned (s : State) : Prop :=
  ∃ h ∈ s.handlers, h.pc = .returnedUnlocked ∨ h.pc = .returnedLocked

/-- One step while `main` is not in `accept`; the label says whether it is a
wake-up without a signal. -/
def AwayStep (s : State) (spurious : Bool) (s' : State) : Prop :=
  s.main ≠ .accepting ∧ Step s s' ∧ (spurious = true ↔ Spurious s s')

/-! ## The measure -/

def HandlerPc.left : HandlerPc → Nat
  | .starting => 6
  | .locking => 5
  | .serving => 4
  | .copied => 3
  | .signalled => 2
  | .unlocked => 1
  | _ => 0

/-- `creating` counts for the handler it may bring in, too. -/
def MainPc.left : MainPc → Nat
  | .accepting => 0
  | .creating => 23
  | .locking => 4
  | .testing => 3
  | .waiting => 2
  | .relocking => 4
  | .unlocking => 1

/-- What is left to do: a signal wakes `main` up, so that a step of a handler
outweighs that. -/
def left (s : State) : Nat := s.main.left + 3 * (s.handlers.map fun h => h.pc.left).sum

theorem sum_set {hs : List Handler} {k : Nat} {h g : Handler} (here : hs[k]? = some h) :
    ((hs.set k g).map fun h => h.pc.left).sum + h.pc.left =
      (hs.map fun h => h.pc.left).sum + g.pc.left := by
  induction hs generalizing k with
  | nil => simp at here
  | cons first rest ih =>
      cases k with
      | zero =>
          simp only [List.getElem?_cons_zero, Option.some.injEq] at here
          subst here
          simp only [List.set_cons_zero, List.map_cons, List.sum_cons]
          omega
      | succ k =>
          simp only [List.getElem?_cons_succ] at here
          have later := ih here
          simp only [List.set_cons_succ, List.map_cons, List.sum_cons]
          omega

theorem handlerStep_lowers {s s' : State} {k : Nat} {h : Handler} (step : HandlerStep s k h s') :
    ∃ g, s'.handlers = s.handlers.set k g ∧ g.pc.left < h.pc.left ∧
      s'.main.left ≤ s.main.left + 2 := by
  cases step with
  | signals pc =>
      refine ⟨_, rfl, by simp [pc, HandlerPc.left], ?_⟩
      simp only
      split
      · rename_i waiting
        rw [waiting]
        decide
      · omega
  | reads pc => exact ⟨_, rfl, by simp [pc, HandlerPc.left], Nat.le_add_right _ _⟩
  | locks pc _ => exact ⟨_, rfl, by simp [pc, HandlerPc.left], Nat.le_add_right _ _⟩
  | copies pc => exact ⟨_, rfl, by simp [pc, HandlerPc.left], Nat.le_add_right _ _⟩
  | unlocks pc => exact ⟨_, rfl, by simp [pc, HandlerPc.left], Nat.le_add_right _ _⟩
  | closes pc => exact ⟨_, rfl, by simp [pc, HandlerPc.left], Nat.le_add_right _ _⟩
  | returnsUnlocked pc => exact ⟨_, rfl, by simp [pc, HandlerPc.left], Nat.le_add_right _ _⟩
  | returnsLocked pc => exact ⟨_, rfl, by simp [pc, HandlerPc.left], Nat.le_add_right _ _⟩

theorem left_handler {s s' : State} {k : Nat} {h : Handler} (here : s.handlers[k]? = some h)
    (step : HandlerStep s k h s') : left s' < left s := by
  obtain ⟨g, handlers, lower, main⟩ := handlerStep_lowers step
  have sum := sum_set (g := g) here
  rw [left, left, handlers]
  omega

theorem left_step {s s' : State} {spurious : Bool} (step : AwayStep s spurious s') :
    left s' < left s + (if spurious then 3 else 0) := by
  obtain ⟨away, step, label⟩ := step
  cases step with
  | accepts fd main _ => exact absurd main away
  | acceptFails fd main _ => exact absurd main away
  | handler k h _ here step => exact lt_of_lt_of_le (left_handler here step) (Nat.le_add_right _ _)
  | wakes main =>
      rw [label.mpr ⟨main, rfl⟩]
      simp only [left, main, MainPc.left, if_true]
      omega
  | creates main =>
      simp only [left, main, MainPc.left, List.map_append, List.map_singleton, List.sum_append,
        List.sum_singleton, HandlerPc.left]
      omega
  | createFails main =>
      simp only [left, main, MainPc.left]
      omega
  | locks main _ =>
      rcases main with main | main <;> simp only [left, main, MainPc.left] <;> omega
  | waits main _ =>
      simp only [left, main, MainPc.left]
      omega
  | takes main _ =>
      simp only [left, main, MainPc.left]
      omega
  | unlocks main =>
      simp only [left, main, MainPc.left]
      omega

/-! ## Somebody can go on -/

/-- If the flag is down while `main` waits, a signal is still to come. -/
def SignalComes (s : State) : Prop :=
  s.main = .waiting → s.flag = true ∨ ∃ h ∈ s.handlers, h.pc = .copied

theorem mem_set_of_ne {hs : List Handler} {k : Nat} {h g copied : Handler} (here : hs[k]? = some h)
    (member : copied ∈ hs) (other : copied ≠ h) : copied ∈ hs.set k g := by
  obtain ⟨j, at_j⟩ := List.mem_iff_getElem?.mp member
  have different : k ≠ j := by
    rintro rfl
    rw [here] at at_j
    exact other (Option.some.inj at_j).symm
  exact List.mem_of_getElem? ((List.getElem?_set_ne different).trans at_j)

theorem signalComes_step {s s' : State} (comes : SignalComes s) (step : Step s s') :
    SignalComes s' := by
  cases step with
  | waits main flag => exact fun _ => Or.inl flag
  | handler k h _ here step =>
      have kept : ∀ g : Handler, h.pc ≠ .copied → s.main = .waiting →
          s.flag = true ∨ ∃ h ∈ s.handlers.set k g, h.pc = .copied := by
        intro g other waiting
        refine (comes waiting).imp_right ?_
        rintro ⟨copied, member, pc⟩
        exact ⟨copied, mem_set_of_ne here member fun same => other (same ▸ pc), pc⟩
      cases step with
      | copies pc =>
          refine fun _ => Or.inr ⟨_, List.mem_of_getElem?
            (List.getElem?_set_self (List.getElem?_eq_some_iff.mp here).1), rfl⟩
      | signals pc =>
          intro waiting
          simp only at waiting
          split at waiting
          · cases waiting
          · rename_i other
            exact absurd waiting other
      | reads pc => exact kept _ (by rw [pc]; simp)
      | locks pc _ => exact kept _ (by rw [pc]; simp)
      | unlocks pc => exact kept _ (by rw [pc]; simp)
      | closes pc => exact kept _ (by rw [pc]; simp)
      | returnsUnlocked pc => exact kept _ (by rw [pc]; simp)
      | returnsLocked pc => exact kept _ (by rw [pc]; simp)
  | acceptFails fd main _ =>
      intro waiting
      simp only at waiting
      rw [main] at waiting
      cases waiting
  | _ => exact fun absurdity => by cases absurdity

theorem signalComes_reachable {s : State} (reached : Reachable s) : SignalComes s := by
  obtain ⟨garbage, steps⟩ := reached
  induction steps with
  | refl => exact fun absurdity => by cases absurdity
  | tail _ step ih => exact signalComes_step ih step

theorem not_spurious_handler {s s' : State} {k : Nat} {h : Handler} (here : s.handlers[k]? = some h)
    (step : HandlerStep s k h s') : ¬ Spurious s s' := by
  rintro ⟨_, same⟩
  have fewer := left_handler here step
  rw [same, left, left] at fewer
  obtain ⟨g, handlers, lower, _⟩ := handlerStep_lowers step
  have sum := sum_set (g := g) here
  rw [← handlers, same] at sum
  simp only at sum
  omega

theorem handler_goes_on {s : State} {k : Nat} {h : Handler} (here : s.handlers[k]? = some h)
    (going : h.pc = .starting ∨ h.pc = .serving ∨ h.pc = .copied ∨ h.pc = .signalled ∨
      h.pc = .unlocked) : ∃ s', Step s s' ∧ ¬ Spurious s s' := by
  have steps : ∀ {s'}, HandlerStep s k h s' → ∃ s', Step s s' ∧ ¬ Spurious s s' := fun step =>
    ⟨_, .handler k h _ here step, not_spurious_handler here step⟩
  rcases going with pc | pc | pc | pc | pc
  · exact steps (.reads pc)
  · exact steps (.copies pc)
  · exact steps (.signals pc)
  · exact steps (.unlocks pc)
  · exact steps (.closes pc)

theorem not_spurious {s s' : State} (other : s.main ≠ .waiting) : ¬ Spurious s s' := fun wakes =>
  other wakes.1

theorem testing_goes_on {s : State} (testing : s.main = .testing) :
    ∃ s', Step s s' ∧ ¬ Spurious s s' := by
  have other : s.main ≠ .waiting := by rw [testing]; simp
  cases flag : s.flag with
  | true => exact ⟨_, .waits testing flag, not_spurious other⟩
  | false => exact ⟨_, .takes testing flag, not_spurious other⟩

/-- Outside `accept` somebody can go on, unless a handler has returned early. -/
theorem goes_on {s : State} (reached : Reachable s) (away : s.main ≠ .accepting)
    (calm : ¬ Returned s) : ∃ s', Step s s' ∧ ¬ Spurious s s' := by
  rcases (inv_reachable reached).phase with idle | ⟨before, h, busy⟩
  · rcases idle.place with ⟨main | main, _⟩ | ⟨main, _⟩
    · exact absurd main away
    · exact ⟨_, .createFails main, not_spurious (by rw [main]; simp)⟩
    · exact ⟨_, .unlocks main, not_spurious (by rw [main]; simp)⟩
  · have here : s.handlers[before.length]? = some h := by simp [busy.handlers]
    have member := List.mem_of_getElem? here
    have newest := busy.newest
    cases pc : h.pc with
    | starting => exact handler_goes_on here (Or.inl pc)
    | serving => exact handler_goes_on here (Or.inr (Or.inl pc))
    | copied => exact handler_goes_on here (Or.inr (Or.inr (Or.inl pc)))
    | signalled => exact handler_goes_on here (Or.inr (Or.inr (Or.inr (Or.inl pc))))
    | unlocked => exact handler_goes_on here (Or.inr (Or.inr (Or.inr (Or.inr pc))))
    | returnedUnlocked => exact absurd ⟨h, member, Or.inl pc⟩ calm
    | returnedLocked => exact absurd ⟨h, member, Or.inr pc⟩ calm
    | locking =>
        simp only [NewestAt, pc] at newest
        rcases newest.2.1 with free | owned
        · exact ⟨_, .handler _ h _ here (.locks pc free),
            not_spurious_handler here (.locks pc free)⟩
        · exact testing_goes_on (busy.owner.mp owned)
    | closed =>
        simp only [NewestAt, pc] at newest
        rcases busy.place with main | main | main | main
        · have free := newest.2.1.resolve_right fun owned => by
            rw [busy.owner, main] at owned
            cases owned
          exact ⟨_, .locks (Or.inl main) free, not_spurious (by rw [main]; simp)⟩
        · exact testing_goes_on main
        · rcases signalComes_reachable reached main with flag | ⟨copied, inside, at_copied⟩
          · rw [newest.2.2.1] at flag
            cases flag
          · rw [busy.handlers, List.mem_append, List.mem_singleton] at inside
            rcases inside with older | rfl
            · rcases (busy.done copied older).left with place | place <;>
                rw [at_copied] at place <;>
                cases place
            · rw [pc] at at_copied
              cases at_copied
        · have free := newest.2.1.resolve_right fun owned => by
            rw [busy.owner, main] at owned
            cases owned
          exact ⟨_, .locks (Or.inr main) free, not_spurious (by rw [main]; simp)⟩

/-- Two handlers are through their sections, and the third has been created. -/
def thirdCreated : State :=
  { twoServed with
    main := .locking, sc := ⟨2, 5⟩, accepts := 3
    handlers := twoServed.handlers ++ [⟨⟨2, 5⟩, none, .starting⟩] }

theorem thirdCreated_reachable : Reachable thirdCreated := by
  obtain ⟨garbage, steps⟩ := twoServed_reachable
  exact ⟨garbage, (steps.tail (.accepts 5 rfl (by decide))).tail (.creates rfl)⟩

end DistrApp.Server.AcceptLoop
