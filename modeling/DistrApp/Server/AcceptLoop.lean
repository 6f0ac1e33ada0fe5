import Mathlib

/-!
# The accept loop and the handler threads

`main` passes each descriptor to its handler through one local variable `sc`,
and waits on `cond_mensaje` until the flag `mensaje_no_copiado` is cleared.
The threads, the mutex, the condition variable (with spurious wake-ups), the
flag and `sc` make a step relation; each handler may end early in the two ways
the code has.  One invariant ties the flag, the owner of the mutex and the
program points of `main` and of the newest handler together.
-/

set_option autoImplicit false

namespace DistrApp.Server.AcceptLoop

/-- A result of `accept`; `id` counts the calls, since descriptors are reused. -/
structure Descriptor where
  id : Nat
  fd : Int
  deriving DecidableEq

inductive Thread
  | main
  | handler (k : Nat)
  deriving DecidableEq

/-- Where `main` is: the points are named after what comes next. -/
inductive MainPc
  | accepting
  | creating
  | locking
  | testing
  | waiting
  | relocking
  | unlocking
  deriving DecidableEq

/-- Where a handler is.  `copied` and `signalled` are inside the section, after
the flag is cleared; the last two are the early returns. -/
inductive HandlerPc
  | starting
  | locking
  | serving
  | copied
  | signalled
  | unlocked
  | closed
  | returnedUnlocked
  | returnedLocked
  deriving DecidableEq

structure Handler where
  /-- What was in `sc` when `pthread_create` succeeded. -/
  accepted : Descriptor
  /-- What `*(int *)arg` gave. -/
  read : Option Descriptor
  pc : HandlerPc
  deriving DecidableEq

inductive SectionEvent
  | locked (k : Nat)
  | unlocked (k : Nat)
  deriving DecidableEq

structure State where
  main : MainPc
  sc : Descriptor
  /-- `mensaje_no_copiado` -/
  flag : Bool
  /-- The owner of `mutex_mensaje`. -/
  owner : Option Thread
  handlers : List Handler
  accepts : Nat
  sections : List SectionEvent

/-- The server about to accept for the first time; `sc` is uninitialised. -/
def initial (garbage : Descriptor) : State where
  main := .accepting
  sc := garbage
  flag := true
  owner := none
  handlers := []
  accepts := 0
  sections := []

def State.update (s : State) (k : Nat) (h : Handler) : State :=
  { s with handlers := s.handlers.set k h }

inductive HandlerStep (s : State) (k : Nat) (h : Handler) : State → Prop
  | reads : h.pc = .starting →
      HandlerStep s k h (s.update k { h with read := some s.sc, pc := .locking })
  | locks : h.pc = .locking → s.owner = none →
      HandlerStep s k h { s.update k { h with pc := .serving } with
        owner := some (.handler k), sections := s.sections ++ [.locked k] }
  | copies : h.pc = .serving →
      HandlerStep s k h { s.update k { h with pc := .copied } with flag := false }
  | signals : h.pc = .copied →
      HandlerStep s k h { s.update k { h with pc := .signalled } with
        main := if s.main = .waiting then .relocking else s.main }
  | unlocks : h.pc = .signalled →
      HandlerStep s k h { s.update k { h with pc := .unlocked } with
        owner := none, sections := s.sections ++ [.unlocked k] }
  | closes : h.pc = .unlocked → HandlerStep s k h (s.update k { h with pc := .closed })
  | returnsUnlocked : h.pc = .serving →
      HandlerStep s k h { s.update k { h with pc := .returnedUnlocked } with
        owner := none, sections := s.sections ++ [.unlocked k] }
  | returnsLocked : h.pc = .serving →
      HandlerStep s k h (s.update k { h with pc := .returnedLocked })

inductive Step (s : State) : State → Prop
  | accepts (fd : Int) : s.main = .accepting → 0 ≤ fd →
      Step s { s with main := .creating, sc := ⟨s.accepts, fd⟩, accepts := s.accepts + 1 }
  | acceptFails (fd : Int) : s.main = .accepting → fd < 0 →
      Step s { s with sc := ⟨s.accepts, fd⟩, accepts := s.accepts + 1 }
  | creates : s.main = .creating →
      Step s { s with main := .locking, handlers := s.handlers ++ [⟨s.sc, none, .starting⟩] }
  | createFails : s.main = .creating → Step s { s with main := .accepting }
  | locks : s.main = .locking ∨ s.main = .relocking → s.owner = none →
      Step s { s with main := .testing, owner := some .main }
  | waits : s.main = .testing → s.flag = true →
      Step s { s with main := .waiting, owner := none }
  /-- A wake-up without a signal. -/
  | wakes : s.main = .waiting → Step s { s with main := .relocking }
  | takes : s.main = .testing → s.flag = false →
      Step s { s with main := .unlocking, flag := true }
  | unlocks : s.main = .unlocking → Step s { s with main := .accepting, owner := none }
  | handler (k : Nat) (h : Handler) (s' : State) : s.handlers[k]? = some h →
      HandlerStep s k h s' → Step s s'

def Reachable (s : State) : Prop := ∃ garbage, Relation.ReflTransGen Step (initial garbage) s

/-! ## The invariant -/

def wholeSections (n : Nat) : List SectionEvent :=
  (List.range n).flatMap fun k => [.locked k, .unlocked k]

theorem wholeSections_succ (n : Nat) :
    wholeSections (n + 1) = wholeSections n ++ [.locked n] ++ [.unlocked n] := by
  simp [wholeSections, List.range_succ]

structure Done (h : Handler) : Prop where
  own : h.read = some h.accepted
  left : h.pc = .unlocked ∨ h.pc = .closed

def Free (s : State) : Prop := s.owner = none ∨ s.owner = some .main

/-- What the program point of the newest handler, the `k`-th, says. -/
def NewestAt (s : State) (k : Nat) (h : Handler) : Prop :=
  match h.pc with
  | .starting => h.read = none ∧ Free s ∧ s.flag = true ∧ s.sections = wholeSections k
  | .locking =>
      h.read = some h.accepted ∧ Free s ∧ s.flag = true ∧ s.sections = wholeSections k
  | .serving => h.read = some h.accepted ∧ s.owner = some (.handler k) ∧ s.flag = true ∧
      s.sections = wholeSections k ++ [.locked k]
  | .copied => h.read = some h.accepted ∧ s.owner = some (.handler k) ∧ s.flag = false ∧
      s.sections = wholeSections k ++ [.locked k]
  | .signalled => h.read = some h.accepted ∧ s.owner = some (.handler k) ∧ s.flag = false ∧
      s.sections = wholeSections k ++ [.locked k]
  | .unlocked => h.read = some h.accepted ∧ Free s ∧ s.flag = false ∧
      s.sections = wholeSections (k + 1)
  | .closed => h.read = some h.accepted ∧ Free s ∧ s.flag = false ∧
      s.sections = wholeSections (k + 1)
  | .returnedUnlocked => h.read = some h.accepted ∧ Free s ∧ s.flag = true ∧
      s.sections = wholeSections (k + 1)
  | .returnedLocked => h.read = some h.accepted ∧ s.owner = some (.handler k) ∧ s.flag = true ∧
      s.sections = wholeSections k ++ [.locked k]

/-- `main` waits for no handler. -/
structure Idle (s : State) : Prop where
  done : ∀ h ∈ s.handlers, Done h
  flag : s.flag = true
  sections : s.sections = wholeSections s.handlers.length
  place : (s.main = .accepting ∨ s.main = .creating) ∧ s.owner = none ∨
    s.main = .unlocking ∧ s.owner = some .main

/-- `main` waits for its newest handler `h`, and `sc` is that handler's. -/
structure Busy (s : State) (before : List Handler) (h : Handler) : Prop where
  handlers : s.handlers = before ++ [h]
  done : ∀ g ∈ before, Done g
  sc : s.sc = h.accepted
  place : s.main = .locking ∨ s.main = .testing ∨ s.main = .waiting ∨ s.main = .relocking
  owner : s.owner = some .main ↔ s.main = .testing
  newest : NewestAt s before.length h

structure Ordered (s : State) : Prop where
  increasing : (s.handlers.map fun h => h.accepted.id).Pairwise (· < ·)
  below : ∀ h ∈ s.handlers, h.accepted.id < s.accepts
  fresh : s.main = .creating → s.sc.id < s.accepts ∧ ∀ h ∈ s.handlers, h.accepted.id < s.sc.id

structure Inv (s : State) : Prop where
  ordered : Ordered s
  phase : Idle s ∨ ∃ before h, Busy s before h

theorem idle_initial (garbage : Descriptor) : Idle (initial garbage) :=
  ⟨by simp [initial], rfl, rfl, Or.inl ⟨Or.inl rfl, rfl⟩⟩

theorem inv_initial (garbage : Descriptor) : Inv (initial garbage) := by
  refine ⟨⟨List.Pairwise.nil, by simp [initial], ?_⟩, Or.inl (idle_initial garbage)⟩
  exact fun absurdity => by cases absurdity

/-! ## Handler steps -/

theorem accepted_set {hs : List Handler} {k : Nat} {h g : Handler} (here : hs[k]? = some h)
    (same : g.accepted = h.accepted) :
    (hs.set k g).map (fun h => h.accepted.id) = hs.map fun h => h.accepted.id := by
  have mapped : (hs.map fun h => h.accepted.id)[k]? = some g.accepted.id := by
    rw [List.getElem?_map, here, Option.map_some, same]
  obtain ⟨inside, value⟩ := List.getElem?_eq_some_iff.mp mapped
  rw [List.map_set, ← value]
  exact List.set_getElem_self inside

theorem handlerStep_shape {s s' : State} {k : Nat} {h : Handler} (step : HandlerStep s k h s') :
    ∃ g, s'.handlers = s.handlers.set k g ∧ g.accepted = h.accepted ∧ s'.sc = s.sc ∧
      s'.accepts = s.accepts ∧ (s'.main = .creating ↔ s.main = .creating) := by
  cases step with
  | signals =>
      refine ⟨_, rfl, rfl, rfl, rfl, ?_⟩
      simp only
      split
      · rename_i waiting
        rw [waiting]
        simp
      · rfl
  | _ => exact ⟨_, rfl, rfl, rfl, rfl, Iff.rfl⟩

theorem ordered_handler {s s' : State} {k : Nat} {h : Handler} (ordered : Ordered s)
    (here : s.handlers[k]? = some h) (step : HandlerStep s k h s') : Ordered s' := by
  obtain ⟨g, handlers, accepted, sc, accepts, main⟩ := handlerStep_shape step
  have ids := accepted_set here accepted
  rw [← handlers] at ids
  have bounded : ∀ n, (∀ h ∈ s.handlers, h.accepted.id < n) →
      ∀ h ∈ s'.handlers, h.accepted.id < n := by
    intro n all h member
    have listed := List.mem_map_of_mem (f := fun h => h.accepted.id) member
    rw [ids] at listed
    obtain ⟨h', member', same⟩ := List.mem_map.mp listed
    exact same ▸ all h' member'
  refine ⟨ids ▸ ordered.increasing, ?_, fun creating => ?_⟩
  · rw [accepts]
    exact bounded _ ordered.below
  · obtain ⟨below, older⟩ := ordered.fresh (main.mp creating)
    rw [sc, accepts]
    exact ⟨below, bounded _ older⟩

theorem handlerStep_done {s s' : State} {k : Nat} {h : Handler} (done : Done h)
    (step : HandlerStep s k h s') : ∃ g, Done g ∧ s' = s.update k g := by
  rcases done.left with pc | pc <;> cases step with
  | closes => exact ⟨{ h with pc := .closed }, ⟨done.own, Or.inr rfl⟩, rfl⟩
  | locks other => rw [pc] at other; cases other
  | _ other => rw [pc] at other; cases other

theorem done_set {hs : List Handler} {k : Nat} {g : Handler} (all : ∀ h ∈ hs, Done h)
    (done : Done g) : ∀ h ∈ hs.set k g, Done h := by
  intro h member
  rcases List.mem_or_eq_of_mem_set member with old | rfl
  · exact all h old
  · exact done

theorem idle_handler {s s' : State} {k : Nat} {h : Handler} (idle : Idle s)
    (here : s.handlers[k]? = some h) (step : HandlerStep s k h s') : Idle s' := by
  obtain ⟨g, done, rfl⟩ := handlerStep_done (idle.done h (List.mem_of_getElem? here)) step
  refine ⟨done_set idle.done done, idle.flag, ?_, idle.place⟩
  simpa [State.update] using idle.sections

theorem busy_older {s s' : State} {before : List Handler} {h old : Handler} {k : Nat}
    (busy : Busy s before h) (inside : k < before.length) (here : before[k]? = some old)
    (step : HandlerStep s k old s') : ∃ g, Busy s' (before.set k g) h := by
  obtain ⟨g, done, rfl⟩ := handlerStep_done (busy.done old (List.mem_of_getElem? here)) step
  refine ⟨g, ?_, done_set busy.done done, busy.sc, busy.place, busy.owner, ?_⟩
  · simp only [State.update, busy.handlers, List.set_append_left _ _ inside]
  · rw [List.length_set]
    exact busy.newest

theorem Busy.not_testing {s : State} {before : List Handler} {h : Handler} (busy : Busy s before h)
    (elsewhere : s.owner ≠ some .main) : s.main ≠ .testing :=
  fun testing => elsewhere (busy.owner.mpr testing)

theorem busy_newest {s s' : State} {before : List Handler} {h : Handler} (busy : Busy s before h)
    (step : HandlerStep s before.length h s') : ∃ g, Busy s' before g := by
  have handlers : ∀ g : Handler, (s.update before.length g).handlers = before ++ [g] := by
    intro g
    simp [State.update, busy.handlers]
  have newest := busy.newest
  cases step with
  | reads pc =>
      simp only [NewestAt, pc] at newest
      exact ⟨_, handlers _, busy.done, busy.sc, busy.place, busy.owner,
        by rw [busy.sc], newest.2⟩
  | locks pc free =>
      simp only [NewestAt, pc] at newest
      have notTesting := busy.not_testing (by rw [free]; simp)
      refine ⟨_, handlers _, busy.done, busy.sc, busy.place, ?_, newest.1, rfl, newest.2.2.1, ?_⟩
      · exact iff_of_false (by simp) notTesting
      · rw [newest.2.2.2]
  | copies pc =>
      simp only [NewestAt, pc] at newest
      exact ⟨_, handlers _, busy.done, busy.sc, busy.place, busy.owner, newest.1, newest.2.1, rfl,
        newest.2.2.2⟩
  | signals pc =>
      simp only [NewestAt, pc] at newest
      have notTesting := busy.not_testing (by rw [newest.2.1]; simp)
      refine ⟨_, handlers _, busy.done, busy.sc, ?_, ?_, newest.1, newest.2.1, newest.2.2.1,
        newest.2.2.2⟩
      · simp only
        split
        · exact Or.inr (Or.inr (Or.inr rfl))
        · exact busy.place
      · refine iff_of_false ?_ ?_
        · show ¬ s.owner = some .main
          rw [newest.2.1]
          simp
        · simp only
          split
          · simp
          · exact notTesting
  | unlocks pc =>
      simp only [NewestAt, pc] at newest
      have notTesting := busy.not_testing (by rw [newest.2.1]; simp)
      refine ⟨_, handlers _, busy.done, busy.sc, busy.place, iff_of_false (by simp) notTesting,
        newest.1, Or.inl rfl, newest.2.2.1, ?_⟩
      rw [wholeSections_succ, newest.2.2.2]
  | closes pc =>
      simp only [NewestAt, pc] at newest
      exact ⟨_, handlers _, busy.done, busy.sc, busy.place, busy.owner, newest⟩
  | returnsUnlocked pc =>
      simp only [NewestAt, pc] at newest
      have notTesting := busy.not_testing (by rw [newest.2.1]; simp)
      refine ⟨_, handlers _, busy.done, busy.sc, busy.place, iff_of_false (by simp) notTesting,
        newest.1, Or.inl rfl, newest.2.2.1, ?_⟩
      rw [wholeSections_succ, newest.2.2.2]
  | returnsLocked pc =>
      simp only [NewestAt, pc] at newest
      exact ⟨_, handlers _, busy.done, busy.sc, busy.place, busy.owner, newest⟩

theorem busy_handler {s s' : State} {before : List Handler} {h g : Handler} {k : Nat}
    (busy : Busy s before h) (here : s.handlers[k]? = some g) (step : HandlerStep s k g s') :
    ∃ before' h', Busy s' before' h' := by
  rw [busy.handlers] at here
  by_cases inside : k < before.length
  · rw [List.getElem?_append_left inside] at here
    obtain ⟨g', later⟩ := busy_older busy inside here step
    exact ⟨_, _, later⟩
  · rw [List.getElem?_append_right (not_lt.mp inside)] at here
    obtain ⟨last, same⟩ := List.getElem?_eq_some_iff.mp here
    have place : k = before.length := by
      rw [List.length_singleton] at last
      omega
    subst place
    simp only [Nat.sub_self, List.getElem_singleton] at same
    subst same
    obtain ⟨h', later⟩ := busy_newest busy step
    exact ⟨_, h', later⟩

/-! ## Steps of `main` -/

theorem NewestAt.free {s s' : State} {k : Nat} {h : Handler} (newest : NewestAt s k h)
    (flag : s'.flag = s.flag) (sections : s'.sections = s.sections)
    (owner : s'.owner = s.owner ∨ Free s ∧ Free s') : NewestAt s' k h := by
  have kept : Free s → Free s' := by
    intro free
    rcases owner with same | ⟨_, free'⟩
    · rw [Free, same]
      exact free
    · exact free'
  have owned : s.owner = some (.handler k) → s'.owner = some (.handler k) := by
    intro owned
    rcases owner with same | ⟨free, _⟩
    · rw [same, owned]
    · rw [Free, owned] at free
      simp at free
  unfold NewestAt at newest ⊢
  rw [flag, sections]
  split at newest
  all_goals first
    | exact ⟨newest.1, kept newest.2.1, newest.2.2⟩
    | exact ⟨newest.1, owned newest.2.1, newest.2.2⟩

theorem NewestAt.done {s : State} {k : Nat} {h : Handler} (newest : NewestAt s k h)
    (cleared : s.flag = false) (free : Free s) :
    Done h ∧ s.sections = wholeSections (k + 1) := by
  have notOwned : s.owner ≠ some (.handler k) := by
    intro owned
    rw [Free, owned] at free
    simp at free
  cases pc : h.pc <;> simp only [NewestAt, pc] at newest
  case unlocked => exact ⟨⟨newest.1, Or.inl pc⟩, newest.2.2.2⟩
  case closed => exact ⟨⟨newest.1, Or.inr pc⟩, newest.2.2.2⟩
  case copied => exact absurd newest.2.1 notOwned
  case signalled => exact absurd newest.2.1 notOwned
  all_goals
    rw [newest.2.2.1] at cleared
    cases cleared

theorem Idle.not_busy {s : State} (idle : Idle s) : ∀ pc ∈ [MainPc.locking, .testing, .waiting,
    .relocking], s.main ≠ pc := by
  rintro pc member rfl
  rcases idle.place with ⟨main | main, _⟩ | ⟨main, _⟩ <;> rw [main] at member <;> simp at member

theorem Busy.not_idle {s : State} {before : List Handler} {h : Handler} (busy : Busy s before h) :
    s.main ≠ .accepting ∧ s.main ≠ .creating ∧ s.main ≠ .unlocking := by
  rcases busy.place with main | main | main | main <;> rw [main] <;> simp

theorem ordered_same {s s' : State} (ordered : Ordered s) (handlers : s'.handlers = s.handlers)
    (accepts : s'.accepts = s.accepts) (main : s'.main ≠ .creating) : Ordered s' :=
  ⟨handlers ▸ ordered.increasing, by rw [handlers, accepts]; exact ordered.below,
    fun creating => absurd creating main⟩

theorem Inv.idle {s : State} (inv : Inv s)
    (outside : s.main = .accepting ∨ s.main = .creating ∨ s.main = .unlocking) : Idle s := by
  rcases inv.phase with idle | ⟨before, h, busy⟩
  · exact idle
  · obtain ⟨accepting, creating, unlocking⟩ := busy.not_idle
    rcases outside with main | main | main
    · exact absurd main accepting
    · exact absurd main creating
    · exact absurd main unlocking

theorem Inv.busy {s : State} (inv : Inv s)
    (waiting : s.main ∈ [MainPc.locking, .testing, .waiting, .relocking]) :
    ∃ before h, Busy s before h := by
  rcases inv.phase with idle | busy
  · exact absurd rfl (idle.not_busy _ waiting)
  · exact busy

theorem Idle.free {s : State} (idle : Idle s) (main : s.main ≠ .unlocking) : s.owner = none := by
  rcases idle.place with ⟨_, free⟩ | ⟨unlocking, _⟩
  · exact free
  · exact absurd unlocking main

theorem Ordered.below_succ {s : State} (ordered : Ordered s) :
    ∀ h ∈ s.handlers, h.accepted.id < s.accepts + 1 := fun h member =>
  Nat.lt_succ_of_lt (ordered.below h member)

theorem ordered_creates {s : State} (ordered : Ordered s) (main : s.main = .creating) :
    Ordered { s with main := .locking, handlers := s.handlers ++ [⟨s.sc, none, .starting⟩] } := by
  obtain ⟨below, older⟩ := ordered.fresh main
  refine ⟨?_, ?_, fun creating => by cases creating⟩
  · simp only [List.map_append, List.map_cons, List.map_nil]
    rw [List.pairwise_append]
    refine ⟨ordered.increasing, List.pairwise_singleton _ _, ?_⟩
    intro a listed b last
    obtain ⟨h, member, rfl⟩ := List.mem_map.mp listed
    rw [List.mem_singleton.mp last]
    exact older h member
  · intro h member
    rcases List.mem_append.mp member with member | member
    · exact ordered.below h member
    · rw [List.mem_singleton.mp member]
      exact below

theorem Busy.main_moves {s : State} {before : List Handler} {h : Handler} (busy : Busy s before h)
    {main : MainPc} {owner : Option Thread}
    (place : main = .locking ∨ main = .testing ∨ main = .waiting ∨ main = .relocking)
    (owned : owner = some .main ↔ main = .testing)
    (free : owner = s.owner ∨ Free s ∧ Free { s with main := main, owner := owner }) :
    Busy { s with main := main, owner := owner } before h :=
  ⟨busy.handlers, busy.done, busy.sc, place, owned, busy.newest.free rfl rfl free⟩

theorem Busy.idle_of_cleared {s : State} {before : List Handler} {h : Handler}
    (busy : Busy s before h) (main : s.main = .testing) (cleared : s.flag = false) :
    Idle { s with main := .unlocking, flag := true } := by
  have owned := busy.owner.mpr main
  obtain ⟨done, sections⟩ := busy.newest.done cleared (Or.inr owned)
  refine ⟨?_, rfl, ?_, Or.inr ⟨rfl, owned⟩⟩
  · intro g member
    rw [show (_ : State).handlers = s.handlers from rfl, busy.handlers, List.mem_append,
      List.mem_singleton] at member
    rcases member with member | rfl
    · exact busy.done g member
    · exact done
  · simp only
    rw [sections, busy.handlers, List.length_append, List.length_singleton]

theorem inv_step {s s' : State} (inv : Inv s) (step : Step s s') : Inv s' := by
  have ordered := inv.ordered
  cases step with
  | accepts fd main _ =>
      have idle := inv.idle (Or.inl main)
      have free := idle.free (by rw [main]; simp)
      refine ⟨⟨ordered.increasing, ordered.below_succ, fun _ => ⟨?_, ordered.below⟩⟩,
        Or.inl ⟨idle.done, idle.flag, idle.sections, Or.inl ⟨Or.inr rfl, free⟩⟩⟩
      exact Nat.lt_succ_self _
  | acceptFails fd main _ =>
      have idle := inv.idle (Or.inl main)
      refine ⟨⟨ordered.increasing, ordered.below_succ, fun creating => ?_⟩,
        Or.inl ⟨idle.done, idle.flag, idle.sections, idle.place⟩⟩
      rw [show (_ : State).main = s.main from rfl, main] at creating
      cases creating
  | creates main =>
      have idle := inv.idle (Or.inr (Or.inl main))
      have free := idle.free (by rw [main]; simp)
      refine ⟨ordered_creates ordered main, Or.inr ⟨s.handlers, _, rfl, idle.done, rfl, Or.inl rfl,
        ?_, rfl, Or.inl free, idle.flag, idle.sections⟩⟩
      rw [show (_ : State).owner = s.owner from rfl, free]
      simp
  | createFails main =>
      have idle := inv.idle (Or.inr (Or.inl main))
      have free := idle.free (by rw [main]; simp)
      exact ⟨ordered_same ordered rfl rfl (by simp),
        Or.inl ⟨idle.done, idle.flag, idle.sections, Or.inl ⟨Or.inl rfl, free⟩⟩⟩
  | locks main free =>
      obtain ⟨before, h, busy⟩ := inv.busy (by rcases main with main | main <;> simp [main])
      exact ⟨ordered_same ordered rfl rfl (by simp), Or.inr ⟨before, h,
        busy.main_moves (Or.inr (Or.inl rfl)) (by simp) (Or.inr ⟨Or.inl free, Or.inr rfl⟩)⟩⟩
  | waits main _ =>
      obtain ⟨before, h, busy⟩ := inv.busy (by simp [main])
      have owned := busy.owner.mpr main
      exact ⟨ordered_same ordered rfl rfl (by simp), Or.inr ⟨before, h,
        busy.main_moves (Or.inr (Or.inr (Or.inl rfl))) (by simp)
          (Or.inr ⟨Or.inr owned, Or.inl rfl⟩)⟩⟩
  | wakes main =>
      obtain ⟨before, h, busy⟩ := inv.busy (by simp [main])
      have elsewhere : s.owner ≠ some .main := by
        rw [ne_eq, busy.owner, main]
        simp
      exact ⟨ordered_same ordered rfl rfl (by simp), Or.inr ⟨before, h,
        busy.main_moves (Or.inr (Or.inr (Or.inr rfl))) (iff_of_false elsewhere (by simp))
          (Or.inl rfl)⟩⟩
  | takes main cleared =>
      obtain ⟨before, h, busy⟩ := inv.busy (by simp [main])
      exact ⟨ordered_same ordered rfl rfl (by simp), Or.inl (busy.idle_of_cleared main cleared)⟩
  | unlocks main =>
      have idle := inv.idle (Or.inr (Or.inr main))
      exact ⟨ordered_same ordered rfl rfl (by simp),
        Or.inl ⟨idle.done, idle.flag, idle.sections, Or.inl ⟨Or.inl rfl, rfl⟩⟩⟩
  | handler k h _ here step =>
      refine ⟨ordered_handler ordered here step, ?_⟩
      rcases inv.phase with idle | ⟨before, g, busy⟩
      · exact Or.inl (idle_handler idle here step)
      · exact Or.inr (busy_handler busy here step)

theorem inv_reachable {s : State} (reached : Reachable s) : Inv s := by
  obtain ⟨garbage, steps⟩ := reached
  induction steps with
  | refl => exact inv_initial garbage
  | tail _ step ih => exact inv_step ih step

/-! ## What holds on every schedule -/

/-- Handlers read only what they were created for, in accept order. -/
structure ReadsInOrder (s : State) : Prop where
  own : ∀ h ∈ s.handlers, ∀ d, h.read = some d → d = h.accepted
  increasing : (s.handlers.map fun h => h.accepted.id).Pairwise (· < ·)

/-- Before `sc` changes, each descriptor has been read by exactly one handler. -/
def ReadBeforeOverwrite (s : State) : Prop :=
  ∀ s', Step s s' → s'.sc ≠ s.sc → ∀ h ∈ s.handlers,
    ∃! k : Nat, ∃ g : Handler, s.handlers[k]? = some g ∧ g.read = some h.accepted

theorem NewestAt.own {s : State} {k : Nat} {h : Handler} (newest : NewestAt s k h) :
    h.read = none ∨ h.read = some h.accepted := by
  cases pc : h.pc <;> simp only [NewestAt, pc] at newest
  case starting => exact Or.inl newest.1
  all_goals exact Or.inr newest.1

theorem NewestAt.sections {s : State} {k : Nat} {h : Handler} (newest : NewestAt s k h) :
    s.sections <+: wholeSections (k + 1) := by
  rw [wholeSections_succ]
  cases pc : h.pc <;> simp only [NewestAt, pc] at newest <;> rw [newest.2.2.2]
  case starting => rw [List.append_assoc]; exact List.prefix_append _ _
  case locking => rw [List.append_assoc]; exact List.prefix_append _ _
  case unlocked => rw [wholeSections_succ]
  case closed => rw [wholeSections_succ]
  case returnedUnlocked => rw [wholeSections_succ]
  all_goals exact List.prefix_append _ _

theorem Inv.readsInOrder {s : State} (inv : Inv s) : ReadsInOrder s := by
  refine ⟨fun h member d read => ?_, inv.ordered.increasing⟩
  rcases inv.phase with idle | ⟨before, g, busy⟩
  · have own := (idle.done h member).own
    rw [own] at read
    exact (Option.some.inj read).symm
  · rw [busy.handlers, List.mem_append, List.mem_singleton] at member
    rcases member with member | rfl
    · have own := (busy.done h member).own
      rw [own] at read
      exact (Option.some.inj read).symm
    · rcases busy.newest.own with none_yet | own
      · rw [none_yet] at read
        cases read
      · rw [own] at read
        exact (Option.some.inj read).symm

theorem accepting_of_overwrite {s s' : State} (step : Step s s') (changed : s'.sc ≠ s.sc) :
    s.main = .accepting := by
  cases step with
  | accepts _ main _ => exact main
  | acceptFails _ main _ => exact main
  | handler k h _ here step =>
      obtain ⟨_, _, _, same, _⟩ := handlerStep_shape step
      exact absurd same changed
  | _ => exact absurd rfl changed

theorem Inv.readBeforeOverwrite {s : State} (inv : Inv s) : ReadBeforeOverwrite s := by
  intro s' step changed h member
  have accepting := accepting_of_overwrite step changed
  rcases inv.phase with idle | ⟨before, g, busy⟩
  · obtain ⟨k, inside, here⟩ := List.getElem_of_mem member
    refine ⟨k, ⟨h, ?_, (idle.done h member).own⟩, ?_⟩
    · rw [List.getElem?_eq_getElem inside, here]
    · rintro j ⟨g, there, read⟩
      have own := (idle.done g (List.mem_of_getElem? there)).own
      rw [read, Option.some.injEq] at own
      obtain ⟨insideJ, there⟩ := List.getElem?_eq_some_iff.mp there
      by_contra different
      have ids := List.pairwise_iff_getElem.mp inv.ordered.increasing
      have sameId : (s.handlers.get ⟨j, insideJ⟩).accepted.id =
          (s.handlers.get ⟨k, inside⟩).accepted.id := by
        simp only [List.get_eq_getElem]
        rw [there, here, own]
      rcases lt_or_gt_of_ne different with below | above
      · have := ids j k (by simpa using insideJ) (by simpa using inside) below
        simp only [List.getElem_map] at this
        simp only [List.get_eq_getElem] at sameId
        omega
      · have := ids k j (by simpa using inside) (by simpa using insideJ) above
        simp only [List.getElem_map] at this
        simp only [List.get_eq_getElem] at sameId
        omega
  · exact absurd accepting busy.not_idle.1

theorem Inv.sections {s : State} (inv : Inv s) :
    s.sections <+: wholeSections s.handlers.length := by
  rcases inv.phase with idle | ⟨before, g, busy⟩
  · rw [idle.sections]
  · rw [busy.handlers, List.length_append, List.length_singleton]
    exact busy.newest.sections

/-- Once a handler has returned early, `main` never accepts again. -/
theorem not_accepting_of_returned {s : State} (reached : Reachable s) {h : Handler}
    (member : h ∈ s.handlers) (early : h.pc = .returnedUnlocked ∨ h.pc = .returnedLocked) :
    s.main ≠ .accepting := by
  rcases (inv_reachable reached).phase with idle | ⟨before, g, busy⟩
  · rcases (idle.done h member).left with pc | pc <;> rcases early with pc' | pc' <;>
      rw [pc] at pc' <;> cases pc'
  · exact busy.not_idle.1

/-- On every schedule each descriptor is read by its own handler before `main`
overwrites `sc`, and the sections follow one another in accept order. -/
theorem one_handler_per_descriptor {s : State} (reached : Reachable s) :
    ReadsInOrder s ∧ ReadBeforeOverwrite s ∧ s.sections <+: wholeSections s.handlers.length :=
  have inv := inv_reachable reached
  ⟨inv.readsInOrder, inv.readBeforeOverwrite, inv.sections⟩

/-! ## Whole rounds of the loop -/

/-- `main` back in `accept` after one more connection, whose handler has left
its section and is about to send the reply. -/
def State.round (s : State) (fd : Int) : State where
  main := .accepting
  sc := ⟨s.accepts, fd⟩
  flag := true
  owner := none
  handlers := s.handlers ++ [⟨⟨s.accepts, fd⟩, some ⟨s.accepts, fd⟩, .unlocked⟩]
  accepts := s.accepts + 1
  sections := s.sections ++ [.locked s.handlers.length] ++ [.unlocked s.handlers.length]

theorem handler_newest {s s' : State} {before : List Handler} {h : Handler}
    (handlers : s.handlers = before ++ [h]) (step : HandlerStep s before.length h s') :
    Step s s' :=
  .handler before.length h s' (by simp [handlers]) step

/-- A round in which `main` tests the flag too early and waits for the signal. -/
theorem round_reached {s : State} (fd : Int) (idle : Idle s)
    (accepting : s.main = .accepting) (valid : 0 ≤ fd) : Relation.ReflTransGen Step s (s.round fd) := by
  have free : s.owner = none := by
    rcases idle.place with ⟨-, owner⟩ | ⟨main, -⟩
    · exact owner
    · rw [accepting] at main
      cases main
  have moved : ∀ (g g' : Handler), (s.handlers ++ [g]).set s.handlers.length g' =
      s.handlers ++ [g'] := by
    intro g g'
    simp
  refine .head (.accepts fd accepting valid) ?_
  refine .head (.creates rfl) ?_
  refine .head (.locks (Or.inl rfl) free) ?_
  refine .head (.waits rfl idle.flag) ?_
  refine .head (handler_newest rfl (.reads rfl)) ?_
  simp only [State.update, moved]
  refine .head (handler_newest rfl (.locks rfl rfl)) ?_
  simp only [State.update, moved]
  refine .head (handler_newest rfl (.copies rfl)) ?_
  simp only [State.update, moved]
  refine .head (handler_newest rfl (.signals rfl)) ?_
  simp only [State.update, moved, if_true]
  refine .head (handler_newest rfl (.unlocks rfl)) ?_
  simp only [State.update, moved]
  refine .head (.locks (Or.inr rfl) rfl) ?_
  refine .head (.takes rfl rfl) ?_
  exact .single (.unlocks rfl)

def twoServed : State :=
  (((initial ⟨0, 0⟩).round 5).round 6).update 0 ⟨⟨0, 5⟩, some ⟨0, 5⟩, .closed⟩

theorem twoServed_reachable : Reachable twoServed := by
  have second : Idle ((initial ⟨0, 0⟩).round 5) := by
    refine ⟨?_, rfl, rfl, Or.inl ⟨Or.inl rfl, rfl⟩⟩
    intro h member
    obtain rfl := List.mem_singleton.mp member
    exact ⟨rfl, Or.inl rfl⟩
  refine ⟨⟨0, 0⟩, (round_reached 5 (idle_initial _) rfl (by decide)).trans ?_⟩
  refine (round_reached 6 second rfl (by decide)).tail ?_
  exact .handler 0 ⟨⟨0, 5⟩, some ⟨0, 5⟩, .unlocked⟩ _ rfl (.closes rfl)

theorem one_handler_per_descriptor_first :
    twoServed.main = .accepting ∧
      (twoServed.handlers.map fun h => h.read) = [some ⟨0, 5⟩, some ⟨1, 6⟩] ∧
      ReadsInOrder twoServed ∧ ReadBeforeOverwrite twoServed ∧
      [.locked 0, .unlocked 0, .locked 1, .unlocked 1] <+: wholeSections 2 :=
  ⟨rfl, rfl, one_handler_per_descriptor twoServed_reachable⟩

end DistrApp.Server.AcceptLoop
