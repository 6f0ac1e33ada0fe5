import DistrApp.Library.Effects
import DistrApp.Library.Text

/-!
# Two programs over a pair of byte streams

What one side sends the other reads in order, but in other portions: a `recv`
returns any nonempty prefix of the unread bytes, up to its limit.  A `Program`
says which call each of its states makes and how it goes on from there; `Prog`
is one written down as a tree.  The reads and the messages of both sides are
kept, so that `conserved` can compare them.
-/

set_option autoImplicit false

namespace DistrApp.Streams

open Effects Text

inductive Call
  | recv (limit : Nat)
  /-- Byte after byte, up to the first that ends a line. -/
  | line (ends : UInt8 → Bool)
  | send (message : Bytes)

def Call.Takes (unread : Bytes) (n : Nat) : Call → Prop
  | recv limit => 1 ≤ n ∧ n ≤ limit ∧ n ≤ unread.length
  | line ends => ∃ body last, unread.take n = body ++ [last] ∧ n ≤ unread.length ∧
      ends last = true ∧ ∀ b ∈ body, ends b = false
  | send _ => False

/-- What a call that fails in the end has sent before. -/
def Call.partly (n : Nat) : Call → List Bytes
  | send message => [message.take n]
  | _ => []

/-- A program over one socket; without a call it has come to its end. -/
structure Program (σ : Type) where
  call : σ → Option Call
  received : σ → Bytes → σ
  sent : σ → σ
  raised : σ → σ

structure Side (σ : Type) where
  state : σ
  unread : Bytes
  got : List Bytes
  put : List Bytes

def Side.start {σ : Type} (state : σ) : Side σ := ⟨state, [], [], []⟩

section Steps
variable {σ τ : Type}

def Side.reads (p : Program σ) (s : Side σ) (n : Nat) : Side σ where
  state := p.received s.state (s.unread.take n)
  unread := s.unread.drop n
  got := s.got ++ [s.unread.take n]
  put := s.put

def Side.sends (p : Program σ) (s : Side σ) (message : Bytes) : Side σ :=
  { s with state := p.sent s.state, put := s.put ++ [message] }

def Side.raises (p : Program σ) (s : Side σ) (messages : List Bytes) : Side σ :=
  { s with state := p.raised s.state, put := s.put ++ messages }

def Side.gains (s : Side σ) (bytes : Bytes) : Side σ := { s with unread := s.unread ++ bytes }

inductive Move
  | reads (n : Nat)
  | sends
  /-- An exception in a call; of a message, `n` bytes are on their way. -/
  | raises (n : Nat)
  deriving DecidableEq

inductive Act
  | near (move : Move)
  | far (move : Move)
  deriving DecidableEq

structure Link (σ τ : Type) where
  near : Side σ
  far : Side τ

inductive Step (p : Program σ) (q : Program τ) (x : Link σ τ) : Act → Link σ τ → Prop
  | nearReads {call : Call} {n : Nat} (here : p.call x.near.state = some call)
      (takes : call.Takes x.near.unread n) :
      Step p q x (.near (.reads n)) { x with near := x.near.reads p n }
  | nearSends {message : Bytes} (here : p.call x.near.state = some (.send message)) :
      Step p q x (.near .sends) ⟨x.near.sends p message, x.far.gains message⟩
  | nearRaises {call : Call} (n : Nat) (here : p.call x.near.state = some call) :
      Step p q x (.near (.raises n))
        ⟨x.near.raises p (call.partly n), x.far.gains (call.partly n).flatten⟩
  | farReads {call : Call} {n : Nat} (here : q.call x.far.state = some call)
      (takes : call.Takes x.far.unread n) :
      Step p q x (.far (.reads n)) { x with far := x.far.reads q n }
  | farSends {message : Bytes} (here : q.call x.far.state = some (.send message)) :
      Step p q x (.far .sends) ⟨x.near.gains message, x.far.sends q message⟩
  | farRaises {call : Call} (n : Nat) (here : q.call x.far.state = some call) :
      Step p q x (.far (.raises n))
        ⟨x.near.gains (call.partly n).flatten, x.far.raises q (call.partly n)⟩

/-! ## Runs that can be computed -/

def Call.takes (unread : Bytes) (n : Nat) : Call → Bool
  | recv limit => decide (1 ≤ n ∧ n ≤ limit ∧ n ≤ unread.length)
  | line ends => decide (n ≤ unread.length) && (unread.take n).getLast?.any ends &&
      (unread.take n).dropLast.all fun b => !ends b
  | send _ => false

theorem Call.takes_sound {unread : Bytes} {n : Nat} {call : Call}
    (allowed : call.takes unread n = true) : call.Takes unread n := by
  cases call with
  | recv limit =>
      simp only [takes, decide_eq_true_eq] at allowed
      exact allowed
  | line ends =>
      simp only [takes, Bool.and_eq_true, decide_eq_true_eq, Option.any_eq_true, List.all_eq_true,
        Bool.not_eq_true'] at allowed
      obtain ⟨⟨inside, last, found, stops⟩, goesOn⟩ := allowed
      exact ⟨(unread.take n).dropLast, last, (List.dropLast_append_getLast? last found).symm,
        inside, stops, goesOn⟩
  | send message => cases allowed

def advance (p : Program σ) (q : Program τ) (x : Link σ τ) : Act → Option (Link σ τ)
  | .near (.reads n) =>
      match p.call x.near.state with
      | some call => if call.takes x.near.unread n then some { x with near := x.near.reads p n } else none
      | none => none
  | .near .sends =>
      match p.call x.near.state with
      | some (.send message) => some ⟨x.near.sends p message, x.far.gains message⟩
      | _ => none
  | .far (.reads n) =>
      match q.call x.far.state with
      | some call => if call.takes x.far.unread n then some { x with far := x.far.reads q n } else none
      | none => none
  | .far .sends =>
      match q.call x.far.state with
      | some (.send message) => some ⟨x.near.gains message, x.far.sends q message⟩
      | _ => none
  | _ => none

def advanceAll (p : Program σ) (q : Program τ) (x : Link σ τ) : List Act → Option (Link σ τ)
  | [] => some x
  | act :: rest => (advance p q x act).bind fun y => advanceAll p q y rest

theorem advance_sound {p : Program σ} {q : Program τ} {x y : Link σ τ} {act : Act}
    (advances : advance p q x act = some y) : Step p q x act y := by
  unfold advance at advances
  split at advances
  · split at advances
    · rename_i call here
      split at advances
      · rename_i allowed
        cases advances
        exact Step.nearReads here (Call.takes_sound allowed)
      · cases advances
    · cases advances
  · split at advances
    · rename_i message here
      cases advances
      exact Step.nearSends here
    · cases advances
  · split at advances
    · rename_i call here
      split at advances
      · rename_i allowed
        cases advances
        exact Step.farReads here (Call.takes_sound allowed)
      · cases advances
    · cases advances
  · split at advances
    · rename_i message here
      cases advances
      exact Step.farSends here
    · cases advances
  · cases advances

theorem run_of_advanceAll {p : Program σ} {q : Program τ} {acts : List Act} :
    ∀ {x y : Link σ τ}, advanceAll p q x acts = some y → Run (Step p q) x acts y := by
  induction acts with
  | nil =>
      intro x y same
      cases same
      exact Run.start
  | cons act rest ih =>
      intro x y advances
      obtain ⟨middle, first, later⟩ := Option.bind_eq_some_iff.mp advances
      exact Run.cons (advance_sound first) (ih later)

/-! ## Nothing is lost on the way -/

/-- What the near side has read and has not read yet is what the far side has
sent, and the other way round; no read returns nothing. -/
structure Conserved (x : Link σ τ) : Prop where
  toNear : x.near.got.flatten ++ x.near.unread = x.far.put.flatten
  toFar : x.far.got.flatten ++ x.far.unread = x.near.put.flatten
  nearGot : ∀ read ∈ x.near.got, read ≠ []
  farGot : ∀ read ∈ x.far.got, read ≠ []

theorem Call.Takes.length {unread : Bytes} {n : Nat} {call : Call} (takes : call.Takes unread n) :
    (unread.take n).length = n := by
  cases call with
  | recv limit => exact List.length_take_of_le takes.2.2
  | line ends =>
      obtain ⟨_, _, _, inside, _⟩ := takes
      exact List.length_take_of_le inside
  | send message => exact takes.elim

theorem Call.Takes.ne_nil {unread : Bytes} {n : Nat} {call : Call} (takes : call.Takes unread n) :
    unread.take n ≠ [] := by
  cases call with
  | recv limit =>
      intro empty
      have size := Call.Takes.length takes
      rw [empty] at size
      exact absurd takes.1 (by simp [← size])
  | line ends =>
      obtain ⟨body, last, shape, _⟩ := takes
      rw [shape]
      simp
  | send message => exact takes.elim

theorem forall_mem_concat {α : Type} {P : α → Prop} {l : List α} {a : α} (all : ∀ b ∈ l, P b)
    (last : P a) : ∀ b ∈ l ++ [a], P b := by
  intro b member
  rcases List.mem_append.mp member with early | here
  · exact all b early
  · rw [List.mem_singleton.mp here]
    exact last

theorem conserved_step {p : Program σ} {q : Program τ} {x y : Link σ τ} {act : Act}
    (conserved : Conserved x) (step : Step p q x act y) : Conserved y := by
  obtain ⟨toNear, toFar, nearGot, farGot⟩ := conserved
  cases step with
  | nearReads here takes =>
      exact ⟨by simpa [Side.reads] using toNear, toFar, forall_mem_concat nearGot takes.ne_nil, farGot⟩
  | nearSends here => exact ⟨toNear, by simp [Side.gains, Side.sends, ← toFar], nearGot, farGot⟩
  | nearRaises n here =>
      exact ⟨toNear, by simp [Side.gains, Side.raises, ← toFar], nearGot, farGot⟩
  | farReads here takes =>
      exact ⟨toNear, by simpa [Side.reads] using toFar, nearGot, forall_mem_concat farGot takes.ne_nil⟩
  | farSends here => exact ⟨by simp [Side.gains, Side.sends, ← toNear], toFar, nearGot, farGot⟩
  | farRaises n here =>
      exact ⟨by simp [Side.gains, Side.raises, ← toNear], toFar, nearGot, farGot⟩

theorem conserved_start (near : σ) (far : τ) :
    Conserved ⟨Side.start near, Side.start far⟩ :=
  ⟨rfl, rfl, fun _ member => (by cases member), fun _ member => (by cases member)⟩

def firstNear (history : List Act) : Option Nat :=
  history.findSome? fun act => match act with
    | .near (.reads n) => some n
    | _ => none

def firstFar (history : List Act) : Option Nat :=
  history.findSome? fun act => match act with
    | .far (.reads n) => some n
    | _ => none

theorem firstNear_concat (history : List Act) (act : Act) :
    firstNear (history ++ [act]) = (firstNear history).or (match act with
      | .near (.reads n) => some n
      | _ => none) := by
  rw [firstNear, List.findSome?_append, firstNear]
  cases act with
  | near move => cases move <;> rfl
  | far move => rfl

theorem firstFar_concat (history : List Act) (act : Act) :
    firstFar (history ++ [act]) = (firstFar history).or (match act with
      | .far (.reads n) => some n
      | _ => none) := by
  rw [firstFar, List.findSome?_append, firstFar]
  cases act with
  | near move => rfl
  | far move => cases move <;> rfl

/-! ## In the middle of a connection -/

def Side.after (s : Side σ) (got put : List Bytes) : Side σ :=
  { s with got := got ++ s.got, put := put ++ s.put }

theorem step_after {p : Program σ} {q : Program τ} {x : Link σ τ} {z : Link σ τ} {act : Act}
    {nearGot nearPut farGot farPut : List Bytes}
    (step : Step p q ⟨x.near.after nearGot nearPut, x.far.after farGot farPut⟩ act z) :
    ∃ y, Step p q x act y ∧ z = ⟨y.near.after nearGot nearPut, y.far.after farGot farPut⟩ := by
  cases step with
  | nearReads here takes =>
      exact ⟨_, Step.nearReads here takes, by simp [Side.after, Side.reads]⟩
  | nearSends here =>
      exact ⟨_, Step.nearSends here, by simp [Side.after, Side.sends, Side.gains]⟩
  | nearRaises n here =>
      exact ⟨_, Step.nearRaises n here, by simp [Side.after, Side.raises, Side.gains]⟩
  | farReads here takes =>
      exact ⟨_, Step.farReads here takes, by simp [Side.after, Side.reads]⟩
  | farSends here =>
      exact ⟨_, Step.farSends here, by simp [Side.after, Side.sends, Side.gains]⟩
  | farRaises n here =>
      exact ⟨_, Step.farRaises n here, by simp [Side.after, Side.raises, Side.gains]⟩

theorem Step.after {p : Program σ} {q : Program τ} {x y : Link σ τ} {act : Act}
    (step : Step p q x act y) (nearGot nearPut farGot farPut : List Bytes) :
    Step p q ⟨x.near.after nearGot nearPut, x.far.after farGot farPut⟩ act
      ⟨y.near.after nearGot nearPut, y.far.after farGot farPut⟩ := by
  cases step with
  | nearReads here takes =>
      simpa [Side.after, Side.reads] using Step.nearReads
        (x := ⟨x.near.after nearGot nearPut, x.far.after farGot farPut⟩) here takes
  | nearSends here =>
      simpa [Side.after, Side.sends, Side.gains] using Step.nearSends
        (x := ⟨x.near.after nearGot nearPut, x.far.after farGot farPut⟩) here
  | nearRaises n here =>
      simpa [Side.after, Side.raises, Side.gains] using Step.nearRaises
        (x := ⟨x.near.after nearGot nearPut, x.far.after farGot farPut⟩) n here
  | farReads here takes =>
      simpa [Side.after, Side.reads] using Step.farReads
        (x := ⟨x.near.after nearGot nearPut, x.far.after farGot farPut⟩) here takes
  | farSends here =>
      simpa [Side.after, Side.sends, Side.gains] using Step.farSends
        (x := ⟨x.near.after nearGot nearPut, x.far.after farGot farPut⟩) here
  | farRaises n here =>
      simpa [Side.after, Side.raises, Side.gains] using Step.farRaises
        (x := ⟨x.near.after nearGot nearPut, x.far.after farGot farPut⟩) n here

end Steps

/-! ## Programs written down as trees -/

inductive Prog
  | done
  | failed
  | recv (limit : Nat) (next : Bytes → Prog)
  | line (ends : UInt8 → Bool) (next : Bytes → Prog)
  | send (message : Bytes) (next : Prog)

inductive Outcome
  | returns (read : Bytes)
  | raises
  | blocks

def Outcome.Returns (o : Outcome) : Prop := ∃ read, o = returns read

inductive Ending
  | done
  | failed
  | blocked
  deriving DecidableEq

namespace Prog

def call : Prog → Option Call
  | done => none
  | failed => none
  | recv limit _ => some (.recv limit)
  | line ends _ => some (.line ends)
  | send message _ => some (.send message)

def received : Prog → Bytes → Prog
  | recv _ next, bytes => next bytes
  | line _ next, bytes => next bytes
  | p, _ => p

def sent : Prog → Prog
  | send _ next => next
  | p => p

def program : Program Prog where
  call := call
  received := received
  sent := sent
  raised := fun _ => failed

/-- Where the program ends up when its calls go like this, from number `i` on. -/
def against (outcome : Nat → Outcome) : Nat → Prog → Ending
  | _, done => .done
  | _, failed => .failed
  | i, recv _ next =>
      match outcome i with
      | .returns read => against outcome (i + 1) (next read)
      | .raises => .failed
      | .blocks => .blocked
  | i, line _ next =>
      match outcome i with
      | .returns read => against outcome (i + 1) (next read)
      | .raises => .failed
      | .blocks => .blocked
  | i, send _ next =>
      match outcome i with
      | .returns _ => against outcome (i + 1) next
      | .raises => .failed
      | .blocks => .blocked

section Against
variable {outcome : Nat → Outcome} {i : Nat}

theorem against_recv {limit : Nat} {next : Bytes → Prog} :
    against outcome i (recv limit next) = .done ↔
      ∃ read, outcome i = .returns read ∧ against outcome (i + 1) (next read) = .done := by
  rw [against]
  cases outcome i <;> simp

theorem against_send {message : Bytes} {next : Prog} :
    against outcome i (send message next) = .done ↔
      (outcome i).Returns ∧ against outcome (i + 1) next = .done := by
  rw [against, Outcome.Returns]
  cases outcome i <;> simp

end Against

inductive Emits : Prog → Bytes → Prop
  | done : Emits done []
  | recv {limit : Nat} {next : Bytes → Prog} {bytes : Bytes} (later : ∀ read, Emits (next read) bytes) :
      Emits (recv limit next) bytes
  | line {ends : UInt8 → Bool} {next : Bytes → Prog} {bytes : Bytes}
      (later : ∀ read, Emits (next read) bytes) : Emits (line ends next) bytes
  | send {message : Bytes} {next : Prog} {bytes : Bytes} (later : Emits next bytes) :
      Emits (send message next) (message ++ bytes)

theorem Emits.received {p : Prog} {bytes : Bytes} (emits : Emits p bytes) (read : Bytes) :
    Emits (p.received read) bytes := by
  cases emits with
  | done => exact Emits.done
  | recv later => exact later read
  | line later => exact later read
  | send later => exact Emits.send later

theorem Emits.sent {p : Prog} {bytes message : Bytes} (emits : Emits p bytes)
    (here : p.call = some (.send message)) : ∃ rest, bytes = message ++ rest ∧ Emits p.sent rest := by
  cases emits with
  | done => cases here
  | recv later => cases here
  | line later => cases here
  | send later =>
      cases here
      exact ⟨_, rfl, later⟩

/-- It answers a read at most once, by one line: so many answers are still to come. -/
inductive Answers (ends : UInt8 → Bool) : Nat → Prog → Prop
  | done {k : Nat} : Answers ends k done
  | failed {k : Nat} : Answers ends k failed
  | recv {k limit : Nat} {next : Bytes → Prog} (later : ∀ read, Answers ends (k + 1) (next read)) :
      Answers ends k (recv limit next)
  | send {k : Nat} {message : Bytes} {next : Prog} (line : message.countP ends = 1)
      (later : Answers ends k next) : Answers ends (k + 1) (send message next)

def sending : Prog → Bool
  | send _ _ => true
  | _ => false

theorem sending_of_call {p : Prog} {message : Bytes} (here : p.call = some (.send message)) :
    p.sending = true := by
  cases p <;> first
    | rfl
    | cases here

inductive Waits (ends : UInt8 → Bool) : Prog → Prop
  | done : Waits ends done
  | failed : Waits ends failed
  | line {next : Bytes → Prog} (later : ∀ read, Waits ends (next read)) : Waits ends (line ends next)
  | send {message : Bytes} {next : Prog} (later : Waits ends next) : Waits ends (send message next)

theorem Answers.received {ends : UInt8 → Bool} {k n : Nat} {p : Prog} {call : Call} {unread : Bytes}
    (answers : p.Answers ends k) (here : p.call = some call) (takes : call.Takes unread n)
    (read : Bytes) : (p.received read).Answers ends (k + 1) := by
  cases answers with
  | done => cases here
  | failed => cases here
  | recv later => exact later read
  | send line later =>
      cases here
      exact takes.elim

theorem Answers.sent {ends : UInt8 → Bool} {k : Nat} {p : Prog} {message : Bytes}
    (answers : p.Answers ends k) (here : p.call = some (.send message)) :
    ∃ j, k = j + 1 ∧ message.countP ends = 1 ∧ p.sent.Answers ends j := by
  cases answers with
  | done => cases here
  | failed => cases here
  | recv later => cases here
  | send line later =>
      cases here
      exact ⟨_, rfl, line, later⟩

theorem Waits.received {ends : UInt8 → Bool} {n : Nat} {p : Prog} {call : Call} {unread : Bytes}
    (waits : p.Waits ends) (here : p.call = some call) (takes : call.Takes unread n) :
    1 ≤ (unread.take n).countP ends ∧ (p.received (unread.take n)).Waits ends := by
  cases waits with
  | done => cases here
  | failed => cases here
  | line later =>
      cases here
      obtain ⟨body, last, shape, _, stops, _⟩ := takes
      refine ⟨?_, later _⟩
      rw [shape, List.countP_append, List.countP_singleton, if_pos stops]
      exact Nat.le_add_left _ _
  | send later =>
      cases here
      exact takes.elim

theorem Waits.sent {ends : UInt8 → Bool} {p : Prog} {message : Bytes} (waits : p.Waits ends)
    (here : p.call = some (.send message)) : p.sent.Waits ends := by
  cases waits with
  | done => cases here
  | failed => cases here
  | line later => cases here
  | send later => exact later

def sends : List Bytes → Prog → List Bytes
  | _, done => []
  | _, failed => []
  | reads, send message next => message :: sends reads next
  | [], recv _ _ => []
  | [], line _ _ => []
  | read :: reads, recv _ next => sends reads (next read)
  | read :: reads, line _ next => sends reads (next read)

end Prog

/-! ## Messages kept apart by acknowledgements -/

/-- A read takes all that is unread, and no message is sent while an earlier one
is neither acknowledged nor read. -/
def Apart (x : Link Prog Prog) : Act → Prop
  | .near (.reads n) => n = x.near.unread.length
  | .near _ => True
  | .far (.reads _) => True
  | .far _ => x.far.state.sending = true →
      x.far.got.length = x.far.put.length ∨ x.near.got.length = x.far.put.length

instance (x : Link Prog Prog) : DecidablePred (Apart x)
  | .near (.reads n) => inferInstanceAs (Decidable (n = x.near.unread.length))
  | .near .sends => isTrue trivial
  | .near (.raises _) => isTrue trivial
  | .far (.reads _) => isTrue trivial
  | .far .sends => inferInstanceAs (Decidable (_ = true → _ ∨ _))
  | .far (.raises _) => inferInstanceAs (Decidable (_ = true → _ ∨ _))

def advanceApart (x : Link Prog Prog) : List Act → Option (Link Prog Prog)
  | [] => some x
  | act :: rest =>
      if Apart x act then
        (advance Prog.program Prog.program x act).bind fun y => advanceApart y rest
      else none

theorem run_of_advanceApart {acts : List Act} :
    ∀ {x y : Link Prog Prog}, advanceApart x acts = some y →
      Run (fun x act y => Step Prog.program Prog.program x act y ∧ Apart x act) x acts y := by
  induction acts with
  | nil =>
      intro x y same
      cases same
      exact Run.start
  | cons act rest ih =>
      intro x y advances
      rw [advanceApart] at advances
      split at advances
      · rename_i apart
        obtain ⟨middle, first, later⟩ := Option.bind_eq_some_iff.mp advances
        exact Run.cons ⟨advance_sound first, apart⟩ (ih later)
      · cases advances

/-- The reads have returned the messages sent so far, except for at most one,
which is whole and unread. -/
def Aligned (x : Link Prog Prog) : Prop :=
  ∃ pending, x.far.put = x.near.got ++ pending ∧ pending.length ≤ 1 ∧
    pending.flatten = x.near.unread

/-- The acknowledgements do not run ahead of the reads. -/
structure Acknowledged (ends : UInt8 → Bool) (x : Link Prog Prog) : Prop where
  conserved : Conserved x
  near : ∃ k, x.near.put.flatten.countP ends + k ≤ x.near.got.length ∧ x.near.state.Answers ends k
  far : x.far.state.Waits ends
  lines : ∀ read ∈ x.far.got, 1 ≤ read.countP ends

section Apart
variable {ends : UInt8 → Bool} {x y : Link Prog Prog} {act : Act}

theorem Acknowledged.length_le (acknowledged : Acknowledged ends x) :
    x.far.got.length ≤ x.near.got.length := by
  obtain ⟨k, answered, _⟩ := acknowledged.near
  have counted : ∀ reads : List Bytes, (∀ read ∈ reads, 1 ≤ read.countP ends) →
      reads.length ≤ reads.flatten.countP ends := by
    intro reads
    induction reads with
    | nil => exact fun _ => Nat.zero_le _
    | cons read reads ih =>
        intro each
        have later := ih fun r member => each r (List.mem_cons_of_mem _ member)
        have here := each read List.mem_cons_self
        rw [List.length_cons, List.flatten_cons, List.countP_append]
        omega
  have arrived := congrArg (List.countP ends) acknowledged.conserved.toFar
  rw [List.countP_append] at arrived
  have lines := counted x.far.got acknowledged.lines
  omega

theorem acknowledged_step (acknowledged : Acknowledged ends x)
    (step : Step Prog.program Prog.program x act y) : Acknowledged ends y := by
  have conserved := conserved_step acknowledged.conserved step
  obtain ⟨-, ⟨k, answered, answers⟩, waits, lines⟩ := acknowledged
  cases step with
  | nearReads here takes =>
      refine ⟨conserved, ⟨k + 1, ?_, answers.received here takes _⟩, waits, lines⟩
      simp only [Side.reads, List.length_append, List.length_singleton]
      omega
  | nearSends here =>
      obtain ⟨j, rfl, line, later⟩ := answers.sent here
      refine ⟨conserved, ⟨j, ?_, later⟩, waits, lines⟩
      simp only [Side.sends, List.flatten_append, List.flatten_singleton, List.countP_append, line]
      omega
  | @nearRaises call n here =>
      refine ⟨conserved, ⟨0, ?_, Prog.Answers.failed⟩, waits, lines⟩
      cases call with
      | recv limit =>
          simp only [Side.raises, Call.partly, List.append_nil]
          omega
      | line ends' =>
          simp only [Side.raises, Call.partly, List.append_nil]
          omega
      | send message =>
          obtain ⟨j, rfl, line, -⟩ := answers.sent here
          have part := (List.take_sublist n message).countP_le (p := ends)
          simp only [Side.raises, Call.partly, List.flatten_append, List.flatten_singleton,
            List.countP_append]
          omega
  | farReads here takes =>
      obtain ⟨line, later⟩ := waits.received here takes
      exact ⟨conserved, ⟨k, answered, answers⟩, later, forall_mem_concat lines line⟩
  | farSends here => exact ⟨conserved, ⟨k, answered, answers⟩, waits.sent here, lines⟩
  | farRaises n here => exact ⟨conserved, ⟨k, answered, answers⟩, Prog.Waits.failed, lines⟩

theorem aligned_step (acknowledged : Acknowledged ends x) (aligned : Aligned x)
    (step : Step Prog.program Prog.program x act y) (apart : Apart x act) : Aligned y := by
  obtain ⟨pending, sent, few, unread⟩ := aligned
  -- before a message is sent, all the earlier ones have been read
  have read : (x.far.got.length = x.far.put.length ∨ x.near.got.length = x.far.put.length) →
      pending = [] := by
    intro settled
    have sizes := congrArg List.length sent
    rw [List.length_append] at sizes
    have acks := acknowledged.length_le
    exact List.eq_nil_of_length_eq_zero (by omega)
  have sends : ∀ message, x.far.state.call = some (.send message) →
      (x.far.state.sending = true →
        x.far.got.length = x.far.put.length ∨ x.near.got.length = x.far.put.length) →
      ∀ part : Bytes, ∃ pending, x.far.put ++ [part] = x.near.got ++ pending ∧ pending.length ≤ 1 ∧
        pending.flatten = x.near.unread ++ part := by
    intro message here apart part
    obtain rfl := read (apart (Prog.sending_of_call here))
    refine ⟨[part], by rw [sent, List.append_nil], le_rfl, ?_⟩
    rw [← unread]
    simp
  cases step with
  | nearReads here takes =>
      have whole : x.near.unread.take _ = x.near.unread := List.take_of_length_le (le_of_eq apart.symm)
      have some_bytes := takes.ne_nil
      rw [whole] at some_bytes
      refine ⟨[], ?_, Nat.zero_le _, ?_⟩
      · obtain ⟨message, rfl⟩ : ∃ message, pending = [message] := by
          rcases pending with _ | ⟨message, _ | ⟨more, rest⟩⟩
          · exact absurd unread.symm some_bytes
          · exact ⟨message, rfl⟩
          · simp at few
        simp only [Side.reads, whole]
        rw [sent, List.append_nil, ← unread, List.flatten_singleton]
      · simp only [Side.reads]
        rw [List.drop_of_length_le (le_of_eq apart.symm)]
        rfl
  | nearSends here => exact ⟨pending, sent, few, unread⟩
  | nearRaises n here => exact ⟨pending, sent, few, unread⟩
  | farReads here takes => exact ⟨pending, sent, few, unread⟩
  | farSends here => exact sends _ here apart _
  | @farRaises call n here =>
      cases call with
      | recv limit => exact ⟨pending, by simpa [Side.raises, Side.gains, Call.partly] using sent, few,
          by simpa [Side.gains, Call.partly] using unread⟩
      | line ends' => exact ⟨pending, by simpa [Side.raises, Side.gains, Call.partly] using sent, few,
          by simpa [Side.gains, Call.partly] using unread⟩
      | send message =>
          have later := sends message here apart (message.take n)
          simpa [Aligned, Side.raises, Side.gains, Call.partly] using later

/-- The messages stay apart in every run in which the unacknowledged ones do. -/
theorem aligned_run {near far : Prog} (answers : near.Answers ends 0) (waits : far.Waits ends)
    {history : List Act}
    (run : Run (fun x act y => Step Prog.program Prog.program x act y ∧ Apart x act)
      ⟨Side.start near, Side.start far⟩ history x) : Aligned x := by
  have invariant : Acknowledged ends x ∧ Aligned x := by
    refine run.invariant (P := fun _ x => Acknowledged ends x ∧ Aligned x) ?_ ?_
    · exact ⟨⟨conserved_start _ _, ⟨0, le_rfl, answers⟩, waits, fun _ member => (by cases member)⟩,
        [], rfl, Nat.zero_le _, rfl⟩
    · rintro past middle label later ⟨acknowledged, aligned⟩ ⟨step, apart⟩
      exact ⟨acknowledged_step acknowledged step, aligned_step acknowledged aligned step apart⟩
  exact invariant.2

end Apart

end DistrApp.Streams
