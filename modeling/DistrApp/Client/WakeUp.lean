import DistrApp.Client.PeerServer

/-!
# How `disconnect` ends the thread

The thread may wait in `accept`, so `disconnect` connects to it before it joins
it.  The two run call by call, in any order, and other clients connect in
between.  What makes the wake-up the last connection the thread serves is the
order of three lines of `disconnect`: connect, clear `_isConnected`, shut down.
-/

set_option autoImplicit false

namespace DistrApp.Client

open Text Streams Effects

inductive Incoming
  | peer
  /-- `sock_thread` of `disconnect`. -/
  | wakeUp
  deriving DecidableEq

/-- The line that the shell comes to next, once `disconnect` has the reply `0`. -/
inductive Disconnecting
  | shell
  | connect
  | clearIsConnected
  | clearConnectedUser
  | shutdown
  | close
  | closeServerSock
  | join
  | returned
  deriving DecidableEq

inductive Handling
  | test
  | callAccept
  | inAccept
  /-- On a connection, with these calls left in the body of the loop. -/
  | attending (connection : Incoming) (rest : Prog)
  | finished

/-- The shell and the thread, with what they share.  Listening sockets are numbers,
and an address is the number of the socket that listens there. -/
structure Threads where
  isConnected : Bool
  serverSock : Nat
  threadAddress : Nat
  closed : List Nat
  queue : Nat → List Incoming
  /-- `sock_thread` has come to its end, so that a `recv` on it returns nothing. -/
  shutDown : Bool
  shell : Disconnecting
  thread : Handling

def Threads.connected (own : Nat) : Threads where
  isConnected := true
  serverSock := own
  threadAddress := own
  closed := []
  queue := fun _ => []
  shutDown := false
  shell := .shell
  thread := .test

inductive Move
  | shell
  | thread
  | accepts (connection : Incoming)
  | arrival
  deriving DecidableEq

def Threads.waitsAt (x : Threads) (sock : Nat) (connections : List Incoming) : Threads :=
  { x with queue := Function.update x.queue sock connections }

/-- One line of `disconnect`, one call of the thread on its socket `own`, or a
connection of another client. -/
inductive Moves (fileDirectory : Bytes) (own : Nat) (x : Threads) : Move → Threads → Prop
  /-- A later `connect` has replaced `_serverSock` before it was refused. -/
  | connectRefused {sock : Nat} (here : x.shell = .shell) (other : sock ≠ own) :
      Moves fileDirectory own x .shell { x with serverSock := sock }
  | disconnect (here : x.shell = .shell) :
      Moves fileDirectory own x .shell { x with shell := .connect }
  | connect (here : x.shell = .connect) (listens : x.threadAddress ∉ x.closed) :
      Moves fileDirectory own x .shell
        { x.waitsAt x.threadAddress (x.queue x.threadAddress ++ [.wakeUp]) with
          shell := .clearIsConnected }
  | connectRaises (here : x.shell = .connect) :
      Moves fileDirectory own x .shell { x with shell := .returned }
  | clearIsConnected (here : x.shell = .clearIsConnected) :
      Moves fileDirectory own x .shell { x with isConnected := false, shell := .clearConnectedUser }
  | clearConnectedUser (here : x.shell = .clearConnectedUser) :
      Moves fileDirectory own x .shell { x with shell := .shutdown }
  | shutdown (here : x.shell = .shutdown) :
      Moves fileDirectory own x .shell { x with shutDown := true, shell := .close }
  | close (here : x.shell = .close) :
      Moves fileDirectory own x .shell { x with shell := .closeServerSock }
  | closeServerSock (here : x.shell = .closeServerSock) :
      Moves fileDirectory own x .shell
        { x with closed := x.serverSock :: x.closed, shell := .join }
  | raises (here : x.shell = .shutdown ∨ x.shell = .close ∨ x.shell = .closeServerSock) :
      Moves fileDirectory own x .shell { x with shutDown := true, shell := .returned }
  | join (here : x.shell = .join) (finished : x.thread = .finished) :
      Moves fileDirectory own x .shell { x with shell := .returned }
  | testTrue (here : x.thread = .test) (connected : x.isConnected = true) :
      Moves fileDirectory own x .thread { x with thread := .callAccept }
  | testFalse (here : x.thread = .test) (disconnected : x.isConnected = false) :
      Moves fileDirectory own x .thread { x with thread := .finished }
  | callAccept (here : x.thread = .callAccept) (listens : own ∉ x.closed) :
      Moves fileDirectory own x .thread { x with thread := .inAccept }
  | acceptClosed (here : x.thread = .callAccept) (closed : own ∈ x.closed) :
      Moves fileDirectory own x .thread { x with thread := .finished }
  | accept {connection : Incoming} {rest : List Incoming} (disk : Disk)
      (here : x.thread = .inAccept) (first : x.queue own = connection :: rest) :
      Moves fileDirectory own x (.accepts connection)
        { x.waitsAt own rest with thread := .attending connection (attend disk fileDirectory) }
  /-- Nothing is ever sent on the wake-up connection. -/
  | recv {connection : Incoming} {limit : Nat} {next : Bytes → Prog} (read : Bytes)
      (here : x.thread = .attending connection (.recv limit next))
      (silent : connection = .wakeUp → x.shutDown = true ∧ read = []) :
      Moves fileDirectory own x .thread { x with thread := .attending connection (next read) }
  | send {connection : Incoming} {message : Bytes} {next : Prog}
      (here : x.thread = .attending connection (.send message next)) :
      Moves fileDirectory own x .thread { x with thread := .attending connection next }
  | attended {connection : Incoming} (here : x.thread = .attending connection .done) :
      Moves fileDirectory own x .thread { x with thread := .test }
  | failed {connection : Incoming} (here : x.thread = .attending connection .failed) :
      Moves fileDirectory own x .thread { x with thread := .finished }
  | callRaises (here : x.thread = .callAccept ∨ x.thread = .inAccept ∨
        ∃ connection rest, x.thread = .attending connection rest) :
      Moves fileDirectory own x .thread { x with thread := .finished }
  | arrival (sock : Nat) :
      Moves fileDirectory own x .arrival (x.waitsAt sock (x.queue sock ++ [.peer]))

/-! ## What becomes of the wake-up connection -/

section Invariant
variable {fileDirectory : Bytes} {own : Nat}

theorem answerTo_nil (disk : Disk) : answerTo disk fileDirectory [] = .done := by
  rw [answerTo, show decodes [] = true by decide +kernel, if_neg (by decide), if_neg (by decide)]

/-- The thread has accepted the wake-up connection: it reads from it, and once it
is shut down it is on its way to the condition of the loop, or has ended. -/
def Woken (fileDirectory : Bytes) (x : Threads) : Prop :=
  (∃ disk, x.thread = .attending .wakeUp (attend disk fileDirectory)) ∨
    x.shutDown = true ∧ (x.thread = .attending .wakeUp .done ∨ x.thread = .test) ∨
    x.thread = .finished

/-- After the wake-up connection is made, and as long as no exception has ended
`disconnect`. -/
def Waking (x : Threads) : Prop :=
  x.shell ≠ .shell ∧ x.shell ≠ .connect ∧ x.shell ≠ .returned

def Cleared (x : Threads) : Prop := Waking x ∧ x.shell ≠ .clearIsConnected

structure Wakes (fileDirectory : Bytes) (own : Nat) (history : List Move) (x : Threads) : Prop where
  address : x.threadAddress = own
  cleared : Cleared x → x.isConnected = false
  shutDown : x.shutDown = true → x.isConnected = false
  pending : Waking x → .wakeUp ∈ x.queue own ∨ Woken fileDirectory x
  accepted : .accepts .wakeUp ∈ history → Woken fileDirectory x

theorem wakes_start : Wakes fileDirectory own [] (Threads.connected own) where
  address := rfl
  cleared := fun cleared => absurd rfl cleared.1.1
  shutDown := fun absurdity => by cases absurdity
  pending := fun waking => absurd rfl waking.1
  accepted := fun absurdity => by cases absurdity

theorem Woken.shell {x y : Threads} (woken : Woken fileDirectory x) (thread : y.thread = x.thread)
    (shutDown : x.shutDown = true → y.shutDown = true) : Woken fileDirectory y := by
  rw [Woken, thread]
  exact woken.imp_right fun later => later.imp_left fun both => ⟨shutDown both.1, both.2⟩

/-- A move of the thread keeps `Woken` because the flag is cleared before the shutdown. -/
theorem Woken.thread {x y : Threads} {move : Move} (woken : Woken fileDirectory x)
    (cleared : x.shutDown = true → x.isConnected = false)
    (moves : Moves fileDirectory own x move y) (other : y.thread ≠ x.thread) :
    Woken fileDirectory y := by
  rcases woken with ⟨disk, here⟩ | ⟨shut, here | here⟩ | here
  · cases moves with
    | recv read here' silent =>
        rw [here, attend] at here'
        cases here'
        obtain ⟨shut, rfl⟩ := silent rfl
        exact Or.inr (Or.inl ⟨shut, Or.inl (congrArg _ (answerTo_nil disk))⟩)
    | callRaises => exact Or.inr (Or.inr rfl)
    | testTrue here' | testFalse here' | callAccept here' | acceptClosed here' | accept disk' here'
    | send here' | attended here' | failed here' =>
        rw [here] at here'
        cases here'
    | _ => exact absurd rfl other
  · cases moves with
    | attended => exact Or.inr (Or.inl ⟨shut, Or.inr rfl⟩)
    | callRaises => exact Or.inr (Or.inr rfl)
    | testTrue here' | testFalse here' | callAccept here' | acceptClosed here' | accept disk' here'
    | recv read here' | send here' | failed here' =>
        rw [here] at here'
        cases here'
    | _ => exact absurd rfl other
  · cases moves with
    | testTrue here' connected =>
        rw [cleared shut] at connected
        cases connected
    | testFalse => exact Or.inr (Or.inr rfl)
    | callRaises => exact Or.inr (Or.inr rfl)
    | callAccept here' | acceptClosed here' | accept disk' here' | recv read here' | send here'
    | attended here' | failed here' =>
        rw [here] at here'
        cases here'
    | _ => exact absurd rfl other
  · cases moves with
    | callRaises => exact Or.inr (Or.inr rfl)
    | testTrue here' | testFalse here' | callAccept here' | acceptClosed here' | accept disk' here'
    | recv read here' | send here' | attended here' | failed here' =>
        rw [here] at here'
        cases here'
    | _ => exact absurd rfl other

section Step
variable {x y : Threads} {move : Move}

theorem moves_address (moves : Moves fileDirectory own x move y) :
    y.threadAddress = x.threadAddress := by
  cases moves <;> rfl

theorem moves_disconnected (moves : Moves fileDirectory own x move y)
    (disconnected : x.isConnected = false) : y.isConnected = false := by
  cases moves with
  | clearIsConnected => rfl
  | _ => exact disconnected

theorem moves_shutDown (moves : Moves fileDirectory own x move y) (shut : x.shutDown = true) :
    y.shutDown = true := by
  cases moves with
  | shutdown => rfl
  | raises => rfl
  | _ => exact shut

theorem woken_step (woken : Woken fileDirectory x)
    (cleared : x.shutDown = true → x.isConnected = false)
    (moves : Moves fileDirectory own x move y) : Woken fileDirectory y := by
  by_cases same : y.thread = x.thread
  · exact woken.shell same (moves_shutDown moves)
  · exact woken.thread cleared moves same

theorem moves_queue (moves : Moves fileDirectory own x move y) (pending : .wakeUp ∈ x.queue own) :
    .wakeUp ∈ y.queue own ∨ Woken fileDirectory y := by
  have added : ∀ sock connection, .wakeUp ∈
      Function.update x.queue sock (x.queue sock ++ [connection]) own := by
    intro sock connection
    by_cases same : own = sock
    · rw [same, Function.update_self]
      exact List.mem_append_left _ (same ▸ pending)
    · rwa [Function.update_of_ne same]
  cases moves with
  | connect => exact Or.inl (added _ _)
  | arrival sock => exact Or.inl (added _ _)
  | accept disk here first =>
      rw [first, List.mem_cons] at pending
      rcases pending with rfl | later
      · exact Or.inr (Or.inl ⟨disk, rfl⟩)
      · left
        show Incoming.wakeUp ∈ Function.update x.queue own _ own
        rwa [Function.update_self]
  | _ => exact Or.inl pending

theorem moves_waking (moves : Moves fileDirectory own x move y) (address : x.threadAddress = own)
    (waking : Waking y) : Waking x ∨ .wakeUp ∈ y.queue own := by
  cases moves with
  | connect here listens =>
      right
      show Incoming.wakeUp ∈ Function.update x.queue x.threadAddress _ own
      rw [address, Function.update_self]
      simp
  | connectRefused here | disconnect here | connectRaises here | raises here | join here =>
      simp_all [Waking]
  | clearIsConnected here | clearConnectedUser here | shutdown here | close here
  | closeServerSock here => exact Or.inl (by rw [Waking, here]; decide)
  | _ => exact Or.inl waking

theorem moves_cleared (moves : Moves fileDirectory own x move y) (cleared : Cleared y) :
    Cleared x ∨ y.isConnected = false := by
  cases moves with
  | clearIsConnected => exact Or.inr rfl
  | connectRefused here | disconnect here | connectRaises here | raises here | join here
  | connect here => simp_all [Cleared, Waking]
  | clearConnectedUser here | shutdown here | close here | closeServerSock here =>
      exact Or.inl (by rw [Cleared, Waking, here]; decide)
  | _ => exact Or.inl cleared

theorem moves_shutDown_cleared (moves : Moves fileDirectory own x move y)
    (shut : y.shutDown = true) : x.shutDown = true ∨ Cleared x := by
  cases moves with
  | shutdown here => exact Or.inr (by rw [Cleared, Waking, here]; decide)
  | raises here =>
      right
      rw [Cleared, Waking]
      rcases here with here | here | here <;> rw [here] <;> decide
  | _ => exact Or.inl shut

theorem wakes_step {history : List Move} (wakes : Wakes fileDirectory own history x)
    (moves : Moves fileDirectory own x move y) : Wakes fileDirectory own (history ++ [move]) y := by
  constructor
  · exact (moves_address moves).trans wakes.address
  · intro cleared
    exact (moves_cleared moves cleared).elim
      (fun before => moves_disconnected moves (wakes.cleared before)) id
  · intro shut
    exact moves_disconnected moves
      ((moves_shutDown_cleared moves shut).elim wakes.shutDown wakes.cleared)
  · intro waking
    rcases moves_waking moves wakes.address waking with before | made
    · rcases wakes.pending before with pending | woken
      · exact moves_queue moves pending
      · exact Or.inr (woken_step woken wakes.shutDown moves)
    · exact Or.inl made
  · intro accepted
    rcases List.mem_append.mp accepted with before | now
    · exact woken_step (wakes.accepted before) wakes.shutDown moves
    · obtain rfl := (List.mem_singleton.mp now).symm
      cases moves with
      | accept disk => exact Or.inl ⟨disk, rfl⟩

end Step

theorem Woken.not_accepting {x : Threads} (woken : Woken fileDirectory x) :
    x.thread ≠ .callAccept ∧ x.thread ≠ .inAccept := by
  rcases woken with ⟨disk, here⟩ | ⟨-, here | here⟩ | here
  all_goals
    rw [here]
    exact ⟨Handling.noConfusion, Handling.noConfusion⟩

def Blocked (own : Nat) (x : Threads) : Prop := x.thread = .inAccept ∧ x.queue own = []

/-- However the moves are ordered and whoever else connects, `disconnect` does not
wait for a thread that waits for a connection, and once the thread has accepted
the wake-up connection it does not ask for another one. -/
theorem never_left_waiting {history : List Move} {x : Threads}
    (run : Run (Moves fileDirectory own) (Threads.connected own) history x) :
    ¬ (x.shell = .join ∧ Blocked own x) ∧
      (.accepts .wakeUp ∈ history → x.thread ≠ .callAccept ∧ x.thread ≠ .inAccept) := by
  have wakes := run.invariant (P := Wakes fileDirectory own) wakes_start wakes_step
  refine ⟨?_, fun accepted => (wakes.accepted accepted).not_accepting⟩
  rintro ⟨joins, waits, empty⟩
  rcases wakes.pending (by rw [Waking, joins]; decide) with pending | woken
  · rw [empty] at pending
    cases pending
  · exact woken.not_accepting.2 waits

end Invariant

theorem never_left_waiting_refused :
    ∃ history x, Run (Moves (ascii "files") 1) (Threads.connected 1) history x ∧ x.shell = .join ∧
      ¬ Blocked 1 x := by
  have connected : Run (Moves (ascii "files") 1) (Threads.connected 1) [] (Threads.connected 1) :=
    Run.start
  have waiting := (connected.next (Moves.testTrue rfl rfl)).next (Moves.callAccept rfl (by decide))
  have refused := waiting.next (Moves.connectRefused rfl (show 2 ≠ 1 by decide))
  have accepted := (refused.next (Moves.arrival 1)).next (Moves.accept emptyDisk rfl rfl)
  have cleared := ((accepted.next (Moves.disconnect rfl)).next (Moves.connect rfl (by decide))).next
    (Moves.clearIsConnected rfl)
  have ended := (cleared.next (Moves.clearConnectedUser rfl)).next (Moves.shutdown rfl)
  have joins := (ended.next (Moves.close rfl)).next (Moves.closeServerSock rfl)
  exact ⟨_, _, joins, rfl, fun blocked => (never_left_waiting joins).1 ⟨rfl, blocked⟩⟩

end DistrApp.Client
