import DistrApp.Library.Sections
import DistrApp.Server.AcceptLoop
import DistrApp.Server.Handler

/-!
# The server with many clients

Each handler thread runs `tratar_mensaje` on its own connection, and all of them
use the same files.  Between any two pieces of a handler's section the other
threads and `main` may take steps.  The section is under the mutex, so the
requests are those of a server that serves one connection after the other, in
the order of `accept`.
-/

set_option autoImplicit false

namespace DistrApp.Server.Concurrent

open Text Effects Sections

/-- What one connection delivers and takes, and what its handler finds around it. -/
structure Peer where
  env : Surroundings
  input : List ReadResult
  writes : List WriteResult

abbrev Key := Nat × AcceptLoop.Descriptor

/-- The handlers' sections; they share the files. -/
def sections (peers : AcceptLoop.Descriptor → Peer) : Family Key Stop Conn Sys where
  get := Conn.sys
  put c s := { c with sys := s }
  put_get _ := rfl
  start key s := Conn.accepted s (peers key.2).input (peers key.2).writes
  get_start _ _ := rfl
  body key := cuerpo (peers key.2).env

structure State where
  loop : AcceptLoop.State
  pool : Pool Key Stop Conn Sys

/-- Where a handler is once its section has this result; nowhere, if C does not
define how it goes on. -/
def exitPc : EStateM.Result Stop Conn Unit → Option AcceptLoop.HandlerPc
  | .ok _ _ => some .copied
  | .error .returned c => some (if c.mutexMensaje then .returnedLocked else .returnedUnlocked)
  | .error (.undefined _) _ => none
  | .error .overrun _ => none

def Serving (loop : AcceptLoop.State) (k : Nat) : Prop :=
  ∃ h, loop.handlers[k]? = some h ∧ h.pc = .serving

variable (peers : AcceptLoop.Descriptor → Peer)

inductive Step (s : State) : State → Prop
  | elsewhere (loop : AcceptLoop.State) : AcceptLoop.Step s.loop loop →
      (∀ k, Serving loop k ↔ Serving s.loop k) → Step s { s with loop := loop }
  /-- `pthread_mutex_lock` -/
  | enters (k : Nat) (h : AcceptLoop.Handler) (d : AcceptLoop.Descriptor)
      (loop : AcceptLoop.State) (pool : Pool Key Stop Conn Sys) :
      s.loop.handlers[k]? = some h → h.pc = .locking → h.read = some d →
      AcceptLoop.HandlerStep s.loop k h loop →
      Move (sections peers) s.pool (.enters (k, d)) pool → Step s ⟨loop, pool⟩
  /-- Any piece of a section. -/
  | advances (key : Key) (pool : Pool Key Stop Conn Sys) :
      Move (sections peers) s.pool (.advances key) pool → Step s { s with pool := pool }
  /-- The flag is cleared, or the handler returns early. -/
  | ends (k : Nat) (h g : AcceptLoop.Handler) (d : AcceptLoop.Descriptor)
      (result : EStateM.Result Stop Conn Unit) (loop : AcceptLoop.State)
      (pool : Pool Key Stop Conn Sys) :
      s.loop.handlers[k]? = some h → h.pc = .serving → h.read = some d →
      AcceptLoop.HandlerStep s.loop k h loop → loop.handlers[k]? = some g →
      exitPc result = some g.pc →
      Move (sections peers) s.pool (.ends (k, d) result) pool → Step s ⟨loop, pool⟩

/-- From the store that `main` leaves before its loop. -/
def Reachable (start : Sys) (s : State) : Prop :=
  ∃ garbage, Relation.ReflTransGen (Step peers) ⟨AcceptLoop.initial garbage, Pool.initial start⟩ s

/-! ## Where the handlers are -/

def Gone : AcceptLoop.HandlerPc → Prop
  | .starting => False
  | .locking => False
  | .serving => False
  | _ => True

/-- The sections that have ended are those of the handlers that have left them,
in the order in which their connections were accepted. -/
structure InOrder (s : State) : Prop where
  each : ∀ (n : Nat) (key : Key) result, s.pool.ended[n]? = some (key, result) →
    key.1 = n ∧ (s.loop.handlers[n]?).map AcceptLoop.Handler.accepted = some key.2
  all : ∀ (n : Nat) (h : AcceptLoop.Handler), s.loop.handlers[n]? = some h →
    (n < s.pool.ended.length ↔ Gone h.pc)

structure Inv (start : Sys) (s : State) : Prop where
  loop : AcceptLoop.Inv s.loop
  serial : ∃ last, Serial (sections peers) start s.pool last
  inside : ∀ k d, s.pool.inside (k, d) ≠ none →
    ∃ h, s.loop.handlers[k]? = some h ∧ h.pc = .serving ∧ h.read = some d
  order : InOrder s
  defined : ∀ e ∈ s.pool.ended, (exitPc e.2).isSome = true

section HandlerSteps
variable {s s' : AcceptLoop.State} {k : Nat} {h : AcceptLoop.Handler}

theorem serving_newest (inv : AcceptLoop.Inv s) (here : s.handlers[k]? = some h)
    (serving : h.pc = .serving) :
    s.owner = some (.handler k) ∧ k + 1 = s.handlers.length ∧ h.read = some h.accepted ∧
      ∀ n g, n < k → s.handlers[n]? = some g → AcceptLoop.Done g := by
  rcases inv.phase with idle | ⟨before, newest, busy⟩
  · rcases (idle.done h (List.mem_of_getElem? here)).left with pc | pc <;> rw [serving] at pc <;>
      cases pc
  · rw [busy.handlers] at here ⊢
    by_cases older : k < before.length
    · rw [List.getElem?_append_left older] at here
      rcases (busy.done h (List.mem_of_getElem? here)).left with pc | pc <;> rw [serving] at pc <;>
        cases pc
    · rw [List.getElem?_append_right (not_lt.mp older)] at here
      obtain ⟨last, same⟩ := List.getElem?_eq_some_iff.mp here
      have place : k = before.length := by
        rw [List.length_singleton] at last
        omega
      subst place
      simp only [Nat.sub_self, List.getElem_singleton] at same
      subst same
      have newest := busy.newest
      simp only [AcceptLoop.NewestAt, serving] at newest
      refine ⟨newest.2.1, by simp, newest.1, fun n g earlier there => ?_⟩
      rw [List.getElem?_append_left earlier] at there
      exact busy.done g (List.mem_of_getElem? there)

theorem handlerStep_pc (step : AcceptLoop.HandlerStep s k h s') :
    ∃ g, s'.handlers = s.handlers.set k g ∧ g.accepted = h.accepted ∧
      (h.pc ≠ .starting → g.read = h.read) ∧
      (h.pc = .serving ∧ g.pc ≠ .serving ∧ Gone g.pc ∨
        h.pc = .locking ∧ g.pc = .serving ∧ s.owner = none ∨
        h.pc ≠ .serving ∧ h.pc ≠ .locking ∧ (Gone g.pc ↔ Gone h.pc)) := by
  cases step with
  | reads pc => exact ⟨_, rfl, rfl, fun other => absurd pc other, by simp [pc, Gone]⟩
  | locks pc free => exact ⟨_, rfl, rfl, fun _ => rfl, by simp [pc, free]⟩
  | copies pc => exact ⟨_, rfl, rfl, fun _ => rfl, by simp [pc, Gone]⟩
  | signals pc => exact ⟨_, rfl, rfl, fun _ => rfl, by simp [pc, Gone]⟩
  | unlocks pc => exact ⟨_, rfl, rfl, fun _ => rfl, by simp [pc, Gone]⟩
  | closes pc => exact ⟨_, rfl, rfl, fun _ => rfl, by simp [pc, Gone]⟩
  | returnsUnlocked pc => exact ⟨_, rfl, rfl, fun _ => rfl, by simp [pc, Gone]⟩
  | returnsLocked pc => exact ⟨_, rfl, rfl, fun _ => rfl, by simp [pc, Gone]⟩

end HandlerSteps

structure Kept (loop loop' : AcceptLoop.State) : Prop where
  old : ∀ (n : Nat) (h : AcceptLoop.Handler), loop.handlers[n]? = some h →
    ∃ g : AcceptLoop.Handler, loop'.handlers[n]? = some g ∧ g.accepted = h.accepted ∧
      (Gone g.pc ↔ Gone h.pc) ∧ (h.pc = .serving → g = h)
  new : ∀ (n : Nat) (g : AcceptLoop.Handler), loop'.handlers[n]? = some g →
    loop.handlers[n]? = none → ¬ Gone g.pc

theorem kept_same {loop loop' : AcceptLoop.State} (same : loop'.handlers = loop.handlers) :
    Kept loop loop' := by
  refine ⟨fun n h here => ⟨h, by rw [same]; exact here, rfl, Iff.rfl, fun _ => rfl⟩,
    fun n g there absent => ?_⟩
  rw [same, absent] at there
  cases there

theorem kept_set {loop loop' : AcceptLoop.State} {k : Nat} {h g : AcceptLoop.Handler}
    (here : loop.handlers[k]? = some h) (handlers : loop'.handlers = loop.handlers.set k g)
    (accepted : g.accepted = h.accepted) (gone : Gone g.pc ↔ Gone h.pc)
    (outside : h.pc ≠ .serving) :
    Kept loop loop' := by
  have inside := (List.getElem?_eq_some_iff.mp here).1
  refine ⟨fun n f there => ?_, fun n f there absent => ?_⟩
  · by_cases same : k = n
    · subst same
      rw [here] at there
      cases there
      refine ⟨g, ?_, accepted, gone, fun serving => absurd serving outside⟩
      rw [handlers, List.getElem?_set_self inside]
    · refine ⟨f, ?_, rfl, Iff.rfl, fun _ => rfl⟩
      rw [handlers, List.getElem?_set_ne same, there]
  · by_cases same : k = n
    · subst same
      rw [here] at absent
      cases absent
    · rw [handlers, List.getElem?_set_ne same, absent] at there
      cases there

theorem kept_created {loop loop' : AcceptLoop.State} {h : AcceptLoop.Handler}
    (handlers : loop'.handlers = loop.handlers ++ [h]) (starting : ¬ Gone h.pc) :
    Kept loop loop' := by
  refine ⟨fun n f there => ⟨f, ?_, rfl, Iff.rfl, fun _ => rfl⟩, fun n f there absent => ?_⟩
  · rw [handlers, List.getElem?_append_left (List.getElem?_eq_some_iff.mp there).1, there]
  · rw [handlers, List.getElem?_append_right (List.getElem?_eq_none_iff.mp absent)] at there
    have last := List.mem_of_getElem? there
    rw [List.mem_singleton] at last
    rw [last]
    exact starting

theorem kept_elsewhere {loop loop' : AcceptLoop.State} (step : AcceptLoop.Step loop loop')
    (outside : ∀ k, Serving loop' k ↔ Serving loop k) : Kept loop loop' := by
  cases step with
  | creates _ => exact kept_created rfl (fun gone => gone)
  | handler k h _ here step =>
      obtain ⟨g, handlers, accepted, _, places⟩ := handlerStep_pc step
      have there : loop'.handlers[k]? = some g := by
        rw [handlers, List.getElem?_set_self (List.getElem?_eq_some_iff.mp here).1]
      rcases places with ⟨left, out, _⟩ | ⟨before, inside, _⟩ | ⟨before, _, gone⟩
      · obtain ⟨f, at_k, serving⟩ := (outside k).mpr ⟨h, here, left⟩
        rw [there] at at_k
        cases at_k
        exact absurd serving out
      · obtain ⟨f, at_k, serving⟩ := (outside k).mp ⟨g, there, inside⟩
        rw [here] at at_k
        cases at_k
        rw [before] at serving
        cases serving
      · exact kept_set here handlers accepted gone before
  | _ => exact kept_same rfl

/-! ## The invariant -/

section Invariant
variable {peers} {start : Sys} {s : State}

theorem inv_initial (garbage : AcceptLoop.Descriptor) :
    Inv peers start ⟨AcceptLoop.initial garbage, Pool.initial start⟩ where
  loop := AcceptLoop.inv_initial garbage
  serial := ⟨start, serial_initial start⟩
  inside := fun _ _ inside => absurd rfl inside
  order := ⟨fun _ _ _ ended => (by cases ended), fun _ _ here => (by cases here)⟩
  defined := fun _ ended => by cases ended

theorem InOrder.kept {loop : AcceptLoop.State} {pool : Pool Key Stop Conn Sys}
    (order : InOrder s) (kept : Kept s.loop loop) (ended : pool.ended = s.pool.ended) :
    InOrder ⟨loop, pool⟩ := by
  refine ⟨fun n key result at_n => ?_, fun n g there => ?_⟩
  · obtain ⟨same, accepted⟩ := order.each n key result (ended ▸ at_n)
    obtain ⟨h, here, own⟩ := Option.map_eq_some_iff.mp accepted
    obtain ⟨g, there, accepted', _⟩ := kept.old n h here
    refine ⟨same, ?_⟩
    rw [there, Option.map_some, accepted', own]
  · simp only
    rw [ended]
    cases here : s.loop.handlers[n]? with
    | some h =>
        obtain ⟨g', there', _, gone, _⟩ := kept.old n h here
        rw [there] at there'
        cases there'
        rw [gone]
        exact order.all n h here
    | none =>
        refine iff_of_false (fun inside => ?_) (kept.new n g there here)
        have accepted := (order.each n _ _ (List.getElem?_eq_getElem inside)).2
        rw [here] at accepted
        cases accepted

theorem InOrder.length (order : InOrder s) (inv : AcceptLoop.Inv s.loop) {k : Nat}
    {h : AcceptLoop.Handler} (here : s.loop.handlers[k]? = some h) (serving : h.pc = .serving) :
    s.pool.ended.length = k := by
  obtain ⟨_, last, _, older⟩ := serving_newest inv here serving
  apply le_antisymm
  · by_contra more
    have gone := (order.all k h here).mp (not_le.mp more)
    rw [serving] at gone
    exact gone
  · by_contra fewer
    have inside := not_le.mp fewer
    have there := List.getElem?_eq_getElem (l := s.loop.handlers)
      (i := s.pool.ended.length) (by omega)
    have gone : Gone (s.loop.handlers.get ⟨s.pool.ended.length, by omega⟩).pc := by
      rcases (older _ _ inside there).left with pc | pc <;> simp only [List.get_eq_getElem] <;>
        rw [pc] <;> trivial
    exact absurd ((order.all _ _ there).mpr gone) (lt_irrefl _)

theorem Inv.empty_of_free (inv : Inv peers start s) (free : s.loop.owner = none) :
    s.pool.Empty := by
  rintro ⟨k, d⟩
  by_contra inside
  obtain ⟨h, here, serving, _⟩ := inv.inside k d inside
  have owned := (serving_newest inv.loop here serving).1
  rw [free] at owned
  cases owned

theorem Inv.inside_kept (inv : Inv peers start s) {loop : AcceptLoop.State}
    (kept : Kept s.loop loop)
    (k : Nat) (d : AcceptLoop.Descriptor) (inside : s.pool.inside (k, d) ≠ none) :
    ∃ h, loop.handlers[k]? = some h ∧ h.pc = .serving ∧ h.read = some d := by
  obtain ⟨h, here, serving, read⟩ := inv.inside k d inside
  obtain ⟨g, there, _, _, same⟩ := kept.old k h here
  rw [same serving] at there
  exact ⟨h, there, serving, read⟩

theorem InOrder.snoc (order : InOrder s) (inv : AcceptLoop.Inv s.loop) {k : Nat}
    {h g : AcceptLoop.Handler} {d : AcceptLoop.Descriptor} {loop : AcceptLoop.State}
    {pool : Pool Key Stop Conn Sys} {result : EStateM.Result Stop Conn Unit}
    (here : s.loop.handlers[k]? = some h) (serving : h.pc = .serving) (read : h.read = some d)
    (handlers : loop.handlers = s.loop.handlers.set k g) (accepted : g.accepted = h.accepted)
    (gone : Gone g.pc) (ended : pool.ended = s.pool.ended ++ [((k, d), result)]) :
    InOrder ⟨loop, pool⟩ := by
  obtain ⟨_, last, own, _⟩ := serving_newest inv here serving
  have length := order.length inv here serving
  have inside := (List.getElem?_eq_some_iff.mp here).1
  refine ⟨fun n key result' at_n => ?_, fun n f there => ?_⟩
  · simp only at at_n ⊢
    rw [ended] at at_n
    rcases lt_or_ge n s.pool.ended.length with old | new
    · rw [List.getElem?_append_left old] at at_n
      rw [handlers, List.getElem?_set_ne (by omega)]
      exact order.each n key result' at_n
    · rw [List.getElem?_append_right new] at at_n
      have found := List.mem_of_getElem? at_n
      rw [List.mem_singleton] at found
      cases found
      have same : n = k := by
        have bound := (List.getElem?_eq_some_iff.mp at_n).1
        rw [List.length_singleton] at bound
        omega
      rw [own] at read
      cases read
      rw [same, handlers, List.getElem?_set_self inside, Option.map_some, accepted]
      exact ⟨rfl, rfl⟩
  · simp only at there ⊢
    rw [ended, List.length_append, List.length_singleton, length]
    by_cases same : k = n
    · subst same
      rw [handlers, List.getElem?_set_self inside] at there
      cases there
      exact iff_of_true (Nat.lt_succ_self k) gone
    · rw [handlers, List.getElem?_set_ne same] at there
      have bound := (List.getElem?_eq_some_iff.mp there).1
      rw [← order.all n f there, length]
      omega

theorem inv_step {s' : State} (inv : Inv peers start s) (step : Step peers s s') :
    Inv peers start s' := by
  obtain ⟨last, serial⟩ := inv.serial
  cases step with
  | elsewhere loop step outside =>
      have kept := kept_elsewhere step outside
      exact ⟨AcceptLoop.inv_step inv.loop step, ⟨last, serial⟩, inv.inside_kept kept,
        inv.order.kept kept rfl, inv.defined⟩
  | enters k h d loop pool here locking read step move =>
      obtain ⟨g, handlers, accepted, kept_read, places⟩ := handlerStep_pc step
      rcases places with ⟨serving, _⟩ | ⟨_, serving, free⟩ | ⟨_, absurdity, _⟩
      · rw [locking] at serving
        cases serving
      · have empty := inv.empty_of_free free
        have kept := kept_set here handlers accepted (by rw [serving, locking]; rfl)
          (by rw [locking]; simp)
        have there : loop.handlers[k]? = some g := by
          rw [handlers, List.getElem?_set_self (List.getElem?_eq_some_iff.mp here).1]
        have reads : g.read = some d := (kept_read (by rw [locking]; simp)).trans read
        have later := serial_move serial move fun _ _ => empty
        cases move with
        | enters _ outside =>
            refine ⟨AcceptLoop.inv_step inv.loop (.handler k h loop here step), later,
              fun j e inside => ?_, inv.order.kept kept rfl, inv.defined⟩
            by_cases same : (j, e) = (k, d)
            · cases same
              exact ⟨g, there, serving, reads⟩
            · rw [show (_ : Pool Key Stop Conn Sys).inside (j, e) = _ from
                Function.update_of_ne same _ _, empty] at inside
              exact absurd rfl inside
      · exact absurd locking absurdity
  | advances key pool move =>
      have later := serial_move serial move fun _ entering => by cases entering
      cases move with
      | advances i r first next a after inside split ran =>
          refine ⟨inv.loop, later, fun k d inside' => ?_, inv.order.kept (kept_same rfl) rfl,
            inv.defined⟩
          apply inv.inside k d
          by_cases same : (k, d) = key
          · rw [same, inside]
            simp
          · rwa [show (_ : Pool Key Stop Conn Sys).inside (k, d) = _ from
              Function.update_of_ne same _ _] at inside'
  | ends k h g d result loop pool here serving read step there exits move =>
      obtain ⟨f, handlers, accepted, _, places⟩ := handlerStep_pc step
      rw [handlers, List.getElem?_set_self (List.getElem?_eq_some_iff.mp here).1] at there
      cases there
      have later := serial_move serial move fun _ entering => by cases entering
      rcases places with ⟨_, _, gone⟩ | ⟨absurdity, _⟩ | ⟨absurdity, _⟩
      · cases move with
        | ends _ r _ inside ran =>
            have only := (serial.only inside).1
            refine ⟨AcceptLoop.inv_step inv.loop (.handler k h loop here step), later,
              fun j e inside' => ?_,
              inv.order.snoc inv.loop here serving read handlers accepted gone rfl,
              fun e member => ?_⟩
            · exact absurd (empty_update only.elsewhere _ _ (j, e)) inside'
            · rcases List.mem_append.mp member with old | new
              · exact inv.defined e old
              · rw [List.mem_singleton.mp new, exits]
                rfl
      · rw [serving] at absurdity
        cases absurdity
      · exact absurd serving absurdity

theorem inv_reachable (reached : Reachable peers start s) : Inv peers start s := by
  obtain ⟨garbage, steps⟩ := reached
  induction steps with
  | refl => exact inv_initial garbage
  | tail _ step ih => exact inv_step ih step

/-- On every schedule the connections are served one after the other, in the
order of `accept`, each from its first line to its last on the store that the
one before it left; and the one that is being served will end as it would have
ended alone. -/
theorem served_in_turn (reached : Reachable peers start s) :
    (∃ last, Serial (sections peers) start s.pool last) ∧ InOrder s :=
  ⟨(inv_reachable reached).serial, (inv_reachable reached).order⟩

end Invariant

/-! ## Connections one after the other -/

/-- The sections of connections that come one after the other, each once the one
before it is over; `n` have been accepted already. -/
def turns (peers : AcceptLoop.Descriptor → Peer) (n : Nat) (s : Sys) :
    List Int → List (Key × EStateM.Result Stop Conn Unit)
  | [] => []
  | fd :: rest =>
      let result := (sections peers).alone (n, ⟨n, fd⟩) s
      ((n, ⟨n, fd⟩), result) :: turns peers (n + 1) (stopped result).sys rest

def Away (loop : AcceptLoop.State) : Prop := ∀ h ∈ loop.handlers, h.pc ≠ .serving

structure Ready (s : State) (n : Nat) : Prop where
  main : s.loop.main = .accepting
  owner : s.loop.owner = none
  flag : s.loop.flag = true
  accepts : s.loop.accepts = n
  length : s.loop.handlers.length = n
  away : Away s.loop
  empty : s.pool.Empty

def stage (l : AcceptLoop.State) (main : AcceptLoop.MainPc) (flag : Bool)
    (owner : Option AcceptLoop.Thread) (h : AcceptLoop.Handler)
    (events : List AcceptLoop.SectionEvent) : AcceptLoop.State :=
  ⟨main, h.accepted, flag, owner, l.handlers ++ [h], l.accepts + 1, events⟩

section Stages
variable {l : AcceptLoop.State} {main : AcceptLoop.MainPc} {flag : Bool}
  {owner : Option AcceptLoop.Thread} {h g : AcceptLoop.Handler} {d : AcceptLoop.Descriptor}
  {events : List AcceptLoop.SectionEvent}

theorem stage_newest :
    (stage l main flag owner h events).handlers[l.handlers.length]? = some h := by
  simp [stage]

theorem HandlerStep.to {s s' s'' : AcceptLoop.State} {k : Nat}
    (step : AcceptLoop.HandlerStep s k h s') (same : s' = s'') : AcceptLoop.HandlerStep s k h s'' :=
  same ▸ step

theorem stage_reads : AcceptLoop.HandlerStep (stage l main flag owner ⟨d, none, .starting⟩ events)
    l.handlers.length ⟨d, none, .starting⟩
    (stage l main flag owner ⟨d, some d, .locking⟩ events) :=
  HandlerStep.to (.reads rfl) (by simp [stage, AcceptLoop.State.update])

theorem stage_locks : AcceptLoop.HandlerStep (stage l main flag none ⟨d, some d, .locking⟩ events)
    l.handlers.length ⟨d, some d, .locking⟩
    (stage l main flag (some (.handler l.handlers.length)) ⟨d, some d, .serving⟩
      (events ++ [.locked l.handlers.length])) :=
  HandlerStep.to (.locks rfl rfl) (by simp [stage, AcceptLoop.State.update])

theorem stage_copies : AcceptLoop.HandlerStep (stage l main flag owner ⟨d, some d, .serving⟩ events)
    l.handlers.length ⟨d, some d, .serving⟩
    (stage l main false owner ⟨d, some d, .copied⟩ events) :=
  HandlerStep.to (.copies rfl) (by simp [stage, AcceptLoop.State.update])

theorem stage_signals :
    AcceptLoop.HandlerStep (stage l .locking flag owner ⟨d, some d, .copied⟩ events)
      l.handlers.length ⟨d, some d, .copied⟩
      (stage l .locking flag owner ⟨d, some d, .signalled⟩ events) :=
  HandlerStep.to (.signals rfl) (by simp [stage, AcceptLoop.State.update])

theorem stage_unlocks :
    AcceptLoop.HandlerStep (stage l main flag owner ⟨d, some d, .signalled⟩ events)
      l.handlers.length ⟨d, some d, .signalled⟩
      (stage l main flag none ⟨d, some d, .unlocked⟩
        (events ++ [.unlocked l.handlers.length])) :=
  HandlerStep.to (.unlocks rfl) (by simp [stage, AcceptLoop.State.update])

theorem stage_away (away : Away l) (out : h.pc ≠ .serving) :
    Away (stage l main flag owner h events) := by
  intro other member
  rcases List.mem_append.mp member with old | new
  · exact away other old
  · rw [List.mem_singleton] at new
    rw [new]
    exact out

end Stages

section Turns
variable {peers : AcceptLoop.Descriptor → Peer} {start : Sys} {s : State} {n : Nat}
  {loop loop' : AcceptLoop.State} {pool : Pool Key Stop Conn Sys}

theorem Reachable.tail {s' : State} (reached : Reachable peers start s) (step : Step peers s s') :
    Reachable peers start s' := by
  obtain ⟨garbage, steps⟩ := reached
  exact ⟨garbage, steps.tail step⟩

theorem Reachable.outside (reached : Reachable peers start ⟨loop, pool⟩) (before : Away loop)
    (step : AcceptLoop.Step loop loop') (after : Away loop') :
    Reachable peers start ⟨loop', pool⟩ := by
  refine reached.tail (.elsewhere _ step fun k => iff_of_false ?_ ?_)
  · rintro ⟨h, here, serving⟩
    exact after h (List.mem_of_getElem? here) serving
  · rintro ⟨h, here, serving⟩
    exact before h (List.mem_of_getElem? here) serving

theorem reachable_serving (reached : Reachable peers start ⟨loop, pool⟩)
    (ready : Ready ⟨loop, pool⟩ n) {d : AcceptLoop.Descriptor} (accepted : 0 ≤ d.fd)
    (next : d.id = loop.accepts) : Reachable peers start
      ⟨stage loop .locking true (some (.handler loop.handlers.length)) ⟨d, some d, .serving⟩
        (loop.sections ++ [.locked loop.handlers.length]),
        ⟨pool.shared, Function.update pool.inside (loop.handlers.length, d)
          (some ⟨(sections peers).start (loop.handlers.length, d) pool.shared,
            (sections peers).body (loop.handlers.length, d)⟩), pool.ended⟩⟩ := by
  obtain ⟨id, fd⟩ := d
  subst next
  have away : Away loop := ready.away
  have first := reached.outside away (.accepts fd ready.main accepted) away
  have created : Away (stage loop .locking true none ⟨⟨loop.accepts, fd⟩, none, .starting⟩
      loop.sections) := stage_away away (by simp)
  have second : Reachable peers start ⟨stage loop .locking true none
      ⟨⟨loop.accepts, fd⟩, none, .starting⟩ loop.sections, pool⟩ := by
    have flag : loop.flag = true := ready.flag
    have owner : loop.owner = none := ready.owner
    rw [← flag, ← owner] at created ⊢
    exact first.outside away (.creates rfl) created
  have third := second.outside created (.handler _ _ _ stage_newest stage_reads)
    (stage_away away (by simp))
  exact third.tail (.enters _ _ _ _ _ stage_newest rfl rfl stage_locks (.enters _ (ready.empty _)))

theorem reachable_accepting {d : AcceptLoop.Descriptor} {events : List AcceptLoop.SectionEvent}
    (away : Away loop)
    (reached : Reachable peers start ⟨stage loop .locking false
      (some (.handler loop.handlers.length)) ⟨d, some d, .copied⟩ events, pool⟩) :
    Reachable peers start ⟨stage loop .accepting true none ⟨d, some d, .unlocked⟩
      (events ++ [.unlocked loop.handlers.length]), pool⟩ := by
  have out : ∀ {main flag owner} {pc : AcceptLoop.HandlerPc} {events}, pc ≠ .serving →
      Away (stage loop main flag owner ⟨d, some d, pc⟩ events) := fun apart => stage_away away apart
  have signalled := reached.outside (out (by simp)) (.handler _ _ _ stage_newest stage_signals)
    (out (by simp))
  have unlocked := signalled.outside (out (by simp)) (.handler _ _ _ stage_newest stage_unlocks)
    (out (by simp))
  have left : Away (stage loop .accepting true none ⟨d, some d, .unlocked⟩ events) := out (by simp)
  have locked := unlocked.outside left (.locks (Or.inl rfl) rfl) left
  have taken := locked.outside left (.takes rfl rfl) left
  exact taken.outside left (.unlocks rfl) left

theorem next_turn (reached : Reachable peers start s) (ready : Ready s n) {fd : Int}
    (accepted : 0 ≤ fd)
    (exits : exitPc ((sections peers).alone (n, ⟨n, fd⟩) s.pool.shared) = some .copied) :
    ∃ s', Reachable peers start s' ∧ Ready s' (n + 1) ∧
      s'.pool.ended = s.pool.ended ++
        [((n, ⟨n, fd⟩), (sections peers).alone (n, ⟨n, fd⟩) s.pool.shared)] ∧
      s'.pool.shared = (stopped ((sections peers).alone (n, ⟨n, fd⟩) s.pool.shared)).sys := by
  obtain ⟨loop, pool⟩ := s
  have length : loop.handlers.length = n := ready.length
  have accepts : loop.accepts = n := ready.accepts
  have away : Away loop := ready.away
  subst length
  have inside := reachable_serving (d := ⟨loop.handlers.length, fd⟩) reached ready accepted
    accepts.symm
  have ends := inside.tail (.ends _ _ _ _ _ _ _ stage_newest rfl rfl stage_copies stage_newest exits
    (.ends ((loop.handlers.length, ⟨loop.handlers.length, fd⟩) : Key) _ _
      (Function.update_self ..) rfl))
  have back := reachable_accepting away ends
  refine ⟨_, back, ?_, rfl, rfl⟩
  refine ⟨rfl, rfl, rfl, ?_, ?_, stage_away away (by simp), ?_⟩
  · exact congrArg (· + 1) accepts
  · exact List.length_append
  · exact empty_update (fun j other => (Function.update_of_ne other ..).trans (ready.empty j)) _ _

/-- Every list of connections that end at their last lines, one after the other,
is a schedule of the server. -/
theorem turns_reachable (fds : List Int) : ∀ {s : State} {n : Nat}, Reachable peers start s →
    Ready s n → (∀ fd ∈ fds, 0 ≤ fd) →
    (∀ e ∈ turns peers n s.pool.shared fds, exitPc e.2 = some .copied) →
    ∃ s', Reachable peers start s' ∧ Ready s' (n + fds.length) ∧
      s'.pool.ended = s.pool.ended ++ turns peers n s.pool.shared fds := by
  induction fds with
  | nil => exact fun reached ready _ _ => ⟨_, reached, ready, (List.append_nil _).symm⟩
  | cons fd rest ih =>
      intro s n reached ready accepted exits
      obtain ⟨middle, reached', ready', ended, shared⟩ := next_turn reached ready
        (accepted fd List.mem_cons_self) (exits _ List.mem_cons_self)
      rw [turns] at exits
      obtain ⟨s', reached'', ready'', ended'⟩ := ih reached' ready'
        (fun other member => accepted other (List.mem_cons_of_mem _ member)) (by
          rw [shared]
          exact fun e member => exits e (List.mem_cons_of_mem _ member))
      refine ⟨s', reached'', ?_, ?_⟩
      · rw [List.length_cons, Nat.add_comm rest.length, ← Nat.add_assoc]
        exact ready''
      · rw [ended', ended, shared, turns, List.append_assoc, List.singleton_append]

theorem ready_initial (garbage : AcceptLoop.Descriptor) (start : Sys) :
    Ready ⟨AcceptLoop.initial garbage, Pool.initial start⟩ 0 :=
  ⟨rfl, rfl, rfl, rfl, rfl, fun _ absurdity => (by cases absurdity), fun _ => rfl⟩

theorem turns_from_start {fds : List Int} (accepted : ∀ fd ∈ fds, 0 ≤ fd)
    (exits : ∀ e ∈ turns peers 0 start fds, exitPc e.2 = some .copied) :
    ∃ s, Reachable peers start s ∧ Ready s fds.length ∧
      s.pool.ended = turns peers 0 start fds := by
  have reached : Reachable peers start ⟨AcceptLoop.initial ⟨0, 0⟩, Pool.initial start⟩ :=
    ⟨⟨0, 0⟩, .refl⟩
  obtain ⟨s, reached', ready, ended⟩ :=
    turns_reachable fds reached (ready_initial ⟨0, 0⟩ start) accepted exits
  rw [Nat.zero_add] at ready
  exact ⟨s, reached', ready, ended⟩

/-- Every order of connections that end at their last lines is served, and `main`
is back in `accept`. -/
theorem every_order_served {fds : List Int} (accepted : ∀ fd ∈ fds, 0 ≤ fd)
    (exits : ∀ e ∈ turns peers 0 start fds, exitPc e.2 = some .copied) :
    ∃ s, Reachable peers start s ∧ s.loop.main = .accepting ∧ s.pool.Empty ∧
      s.pool.ended = turns peers 0 start fds := by
  obtain ⟨s, reached, ready, ended⟩ := turns_from_start accepted exits
  exact ⟨s, reached, ready.main, ready.empty, ended⟩

end Turns

/-! ## Scripts -/

/-- Peers that send these texts, one connection each, in the order of `accept`. -/
def scripted (script : List Bytes) (d : AcceptLoop.Descriptor) : Peer :=
  ⟨answering, reads (script.getD d.id []), []⟩

def scriptTurns (script : List Bytes) (start : Sys) :
    List (Key × EStateM.Result Stop Conn Unit) :=
  turns (scripted script) 0 start (script.map fun _ => 5)

/-- Every connection of the script ends at its last line, and these are served. -/
structure Plays (script : List Bytes) (requests : List Request) (start : Sys) : Prop where
  exits : ∀ e ∈ scriptTurns script start, exitPc e.2 = some .copied
  served : ((scriptTurns script start).flatMap fun e => (stopped e.2).served) = requests

instance (script : List Bytes) (requests : List Request) (start : Sys) :
    Decidable (Plays script requests start) :=
  decidable_of_iff ((∀ e ∈ scriptTurns script start, exitPc e.2 = some .copied) ∧
    ((scriptTurns script start).flatMap fun e => (stopped e.2).served) = requests)
    ⟨fun both => ⟨both.1, both.2⟩, fun plays => ⟨plays.exits, plays.served⟩⟩

section Scripts
variable {script : List Bytes} {requests : List Request} {start : Sys}

theorem descriptors_accepted (script : List Bytes) :
    ∀ fd ∈ script.map fun _ => (5 : Int), 0 ≤ fd := by
  intro fd member
  obtain ⟨_, _, rfl⟩ := List.mem_map.mp member
  decide

theorem Plays.reached (plays : Plays script requests start) :
    ∃ s, Reachable (scripted script) start s ∧ s.pool.Empty ∧
      s.pool.ended = scriptTurns script start := by
  obtain ⟨s, reached, ready, ended⟩ :=
    turns_from_start (descriptors_accepted script) plays.exits
  exact ⟨s, reached, ready.empty, ended⟩

theorem Plays.each (plays : Plays script requests start) {P : Request → Prop}
    (all : ∀ r ∈ requests, P r) :
    ∀ e ∈ scriptTurns script start, ∀ r ∈ (stopped e.2).served, P r := by
  intro e member r served
  refine all r ?_
  rw [← plays.served]
  exact List.mem_flatMap.mpr ⟨e, member, served⟩

end Scripts

/-! ## Six connections of two users -/

def anaScript : List Bytes :=
  [ascii "REGISTER\x00ana\x0010:00\x00", ascii "REGISTER\x00bob\x0010:01\x00",
    ascii "CONNECT\x00ana\x004001\x0010.0.0.1\x0010:02\x00",
    ascii "CONNECT\x00bob\x004002\x0010.0.0.2\x0010:03\x00",
    ascii "PUBLISH\x00bob\x00notes\x00first\x0010:04\x00",
    ascii "LIST_USERS\x00ana\x0010:05\x00OK\x00OK\x00OK\x00"]

def anaRequests : List Request :=
  [.register (ascii "ana"), .register (ascii "bob"),
    .connect (ascii "ana") (ascii "4001") (ascii "10.0.0.1"),
    .connect (ascii "bob") (ascii "4002") (ascii "10.0.0.2"),
    .publish (ascii "bob") (ascii "notes") (ascii "first"), .listUsers (ascii "ana")]

theorem plays_ana : Plays anaScript anaRequests ⟨firstStart, [], []⟩ := by decide +kernel

theorem every_order_served_ana : ∃ s, Reachable (scripted anaScript) ⟨firstStart, [], []⟩ s ∧
    s.loop.main = .accepting ∧ s.pool.Empty ∧
    s.pool.ended = scriptTurns anaScript ⟨firstStart, [], []⟩ :=
  every_order_served (descriptors_accepted anaScript) plays_ana.exits

theorem served_in_turn_ana : ∃ s, s.pool.ended = scriptTurns anaScript ⟨firstStart, [], []⟩ ∧
    (∃ last, Serial (sections (scripted anaScript)) ⟨firstStart, [], []⟩ s.pool last) ∧
    InOrder s := by
  obtain ⟨s, reached, _, ended⟩ := plays_ana.reached
  exact ⟨s, ended, served_in_turn reached⟩

end DistrApp.Server.Concurrent
