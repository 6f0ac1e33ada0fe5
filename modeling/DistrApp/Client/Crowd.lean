import DistrApp.Client.Attributes
import DistrApp.Client.Whereabouts
import DistrApp.Library.Holders

/-!
# Many clients around one server

The shells of many clients, each with at most one CONNECT or DISCONNECT on its
way, and a server that serves their connections and those of any other programs
in any order.  A client learns of its answer later, when the table may have
changed again for others.  What agrees with the table is what each client will
know once it has heard what has been sent to it.
-/

set_option autoImplicit false

namespace DistrApp.Client

open Text FileTree Effects Server Holders

/-! ## One client -/

/-- The calls that change the attributes. -/
inductive Call
  | connect (user : String) (address : Address)
  | disconnect (user : String)

namespace Call

def op : Call → Operacion
  | connect _ _ => .connect
  | disconnect _ => .disconnect

def values : Call → List String
  | connect user address => [user, address.port, address.host]
  | disconnect user => [user]

def request (call : Call) : Request := call.op.request (call.values.map encode)

end Call

namespace Attributes

/-- `client._serverSock = server_sock` -/
def listening (a : Attributes) (address : Address) : Attributes :=
  { a with serverSock := some ⟨address, false⟩ }

def joined (a : Attributes) (user : String) (address : Address) : Attributes :=
  { a with
    isConnected := true
    serverThread := some address
    connectedUser := some user
    threadAddress := some address }

def left (a : Attributes) : Attributes :=
  { a with
    isConnected := false
    connectedUser := none
    serverSock := a.serverSock.map fun sock => { sock with closed := true } }

/-- What the answer to a call changes. -/
def hear (a : Attributes) (call : Call) (respuesta : Bytes) : Attributes :=
  if respuesta.head? = some 48 then
    match call with
    | .connect user address => a.joined user address
    | .disconnect _ => a.left
  else a

/-- What the client takes its entry in the table to be. -/
def entry (a : Attributes) : Option (Bytes × Bytes × Bytes) :=
  if a.isConnected then
    a.connectedUser.bind fun user => a.threadAddress.map fun address =>
      (encode user, encode address.host, encode address.port)
  else none

end Attributes

theorem World.connect_hear (w : World) (user timestamp : String) (address : Address) :
    w.connect user address timestamp =
      (World.ask { w with attributes := w.attributes.listening address }
        (Client.connect user address.port address.host timestamp)).map fun answer =>
          { answer.2 with
            attributes := answer.2.attributes.hear (.connect user address) answer.1 } := by
  rw [World.connect]
  refine congrArg (Option.map · _) (funext fun answer => ?_)
  by_cases ok : answer.1.head? = some 48
  · simp only [Attributes.hear, if_pos ok]
    rfl
  · simp only [Attributes.hear, if_neg ok]

theorem World.disconnect_hear {w : World} {user timestamp : String} {exchange : Exchange}
    (written : Client.disconnect w.attributes.toSession user timestamp = [exchange]) :
    w.disconnect user timestamp = (w.ask exchange).map fun answer =>
      { answer.2 with attributes := answer.2.attributes.hear (.disconnect user) answer.1 } := by
  rw [World.disconnect, written]
  refine congrArg (Option.map · _) (funext fun answer => ?_)
  by_cases ok : answer.1.head? = some 48
  · simp only [Attributes.hear, if_pos ok]
    rfl
  · simp only [Attributes.hear, if_neg ok]

/-! ## The crowd -/

/-- A call on its way: written and not served, or answered and not heard. -/
inductive Talk
  | asks (call : Call) (exchange : Exchange)
  | hears (call : Call) (respuesta : Bytes)

structure Crowd (ι : Type) where
  sys : Sys
  attributes : ι → Attributes
  talks : ι → Option Talk

def Crowd.start {ι : Type} (s : Sys) : Crowd ι := ⟨s, fun _ => Attributes.initial, fun _ => none⟩

inductive Crowd.Move (ι : Type)
  | connects (i : ι) (user : String) (address : Address) (timestamp : String)
  | disconnects (i : ι) (user timestamp : String)
  | serves (i : ι) (peer : Concurrent.Peer)
  | hears (i : ι)
  | passes (peer : Concurrent.Peer)

def connection (s : Sys) (peer : Concurrent.Peer) : EStateM.Result Stop Conn Unit :=
  (cuerpo peer.env).run (Conn.accepted s peer.input peer.writes)

section Moves
variable {ι : Type} [DecidableEq ι]

inductive Crowd.Moves (c : Crowd ι) : Crowd.Move ι → Crowd ι → Prop
  | connects (i : ι) (user : String) (address : Address) (timestamp : String) :
      c.talks i = none →
      Crowd.Moves c (.connects i user address timestamp)
        { c with
          attributes := Function.update c.attributes i ((c.attributes i).listening address)
          talks := Function.update c.talks i (some (.asks (.connect user address)
            (connect user address.port address.host timestamp))) }
  | disconnects (i : ι) (user timestamp : String) (exchange : Exchange) :
      c.talks i = none → exchange ∈ disconnect (c.attributes i).toSession user timestamp →
      Crowd.Moves c (.disconnects i user timestamp)
        { c with talks := Function.update c.talks i (some (.asks (.disconnect user) exchange)) }
  /-- The bytes of the client arrive, cut in any way. -/
  | serves (i : ι) (peer : Concurrent.Peer) (call : Call) (exchange : Exchange) (conn : Conn) :
      c.talks i = some (.asks call exchange) → Delivers peer.input (exchange []).flatten →
      connection c.sys peer = .ok () conn →
      Crowd.Moves c (.serves i peer)
        { c with
          sys := conn.sys
          talks := Function.update c.talks i (some (.hears call conn.sent.flatten)) }
  | hears (i : ι) (call : Call) (respuesta : Bytes) :
      c.talks i = some (.hears call respuesta) →
      Crowd.Moves c (.hears i)
        { c with
          attributes := Function.update c.attributes i ((c.attributes i).hear call respuesta)
          talks := Function.update c.talks i none }
  /-- Any other connection, whatever arrives on it. -/
  | passes (peer : Concurrent.Peer) :
      (Concurrent.exitPc (connection c.sys peer)).isSome = true →
      Crowd.Moves c (.passes peer) { c with sys := (stopped (connection c.sys peer)).sys }

/-- CONNECT is typed while nobody is connected, with a name of the vocabulary; the
calls of the handlers of the crowd do not fail, and only the crowd connects and
disconnects. -/
def Minds (V : Vocabulary) (c : Crowd ι) : Crowd.Move ι → Prop
  | .connects i user address timestamp => (c.attributes i).isConnected = false ∧
      PlainValue user ∧ PlainValue timestamp ∧ Understood V (Call.connect user address).request
  | .disconnects _ _ timestamp => PlainValue timestamp
  | .serves _ peer => peer.env.clntCreate = true ∧ peer.env.terminalRpc = true ∧
      .failed ∉ peer.writes
  | .hears _ => True
  | .passes peer => ∀ r ∈ (stopped (connection c.sys peer)).served, Understood V r ∧
      (∀ username freePort freeServer, r ≠ .connect username freePort freeServer) ∧
        ∀ username, r ≠ .disconnect username

end Moves

/-- The attributes once what has been sent to the client has been heard. -/
def Attributes.settled (a : Attributes) : Option Talk → Attributes
  | some (.hears call respuesta) => a.hear call respuesta
  | _ => a

def Crowd.settled {ι : Type} (c : Crowd ι) (i : ι) : Attributes :=
  (c.attributes i).settled (c.talks i)

/-- The entry that the client will take to be its own. -/
def Crowd.held {ι : Type} (c : Crowd ι) (i : ι) : Option (Bytes × Bytes × Bytes) :=
  (c.settled i).entry

/-! ## A client by itself -/

structure Attributes.At (a : Attributes) (user : String) (address : Address) : Prop where
  isConnected : a.isConnected = true
  connectedUser : a.connectedUser = some user
  threadAddress : a.threadAddress = some address
  serverSock : a.serverSock = some ⟨address, false⟩

inductive Attributes.Shaped (V : Vocabulary) (a : Attributes) : Prop
  | out (isConnected : a.isConnected = false) (nobody : a.connectedUser = none)
  | inside {user : String} {address : Address} (here : a.At user address) (plain : PlainValue user)
      (understood : Understood V (Call.connect user address).request)

def Call.From (a : Attributes) : Call → Prop
  | .connect _ address => a.isConnected = false ∧ a.serverSock = some ⟨address, false⟩
  | .disconnect user => a.connectedUser = some user

structure Waiting (V : Vocabulary) (a : Attributes) (call : Call) (exchange : Exchange) : Prop where
  caller : call.From a
  written : ∃ timestamp, PlainValue timestamp ∧ (exchange []).flatten =
    wire (call.op.name :: call.values.map encode ++ [encode timestamp])
  plain : ∀ value ∈ call.values, PlainValue value
  understood : Understood V call.request

section Clients
variable {V : Vocabulary} {a : Attributes} {user : String} {address : Address} {call : Call}
  {exchange : Exchange}

theorem Attributes.entry_of_out (isConnected : a.isConnected = false) : a.entry = none := by
  rw [entry, isConnected]
  rfl

theorem Attributes.At.entry (here : a.At user address) :
    a.entry = some (encode user, encode address.host, encode address.port) := by
  rw [Attributes.entry, here.isConnected, here.connectedUser, here.threadAddress]
  rfl

theorem understood_disconnect (understood : Understood V (Call.connect user address).request) :
    Understood V (Call.disconnect user).request :=
  ⟨⟨understood.1.1, fun _ _ _ absurdity => by cases absurdity⟩, understood.2.1⟩

theorem Waiting.asked (waiting : Waiting V a call exchange) {peer : Concurrent.Peer}
    (works : peer.env.clntCreate = true ∧ peer.env.terminalRpc = true ∧ .failed ∉ peer.writes)
    (delivers : Delivers peer.input (exchange []).flatten) : ∃ fecha, Server.Asked peer.env call.op
      (call.values.map encode) fecha [] peer.input peer.writes := by
  obtain ⟨timestamp, plain, written⟩ := waiting.written
  refine ⟨encode timestamp, works.1, works.2.1, ?_, ?_, works.2.2, ?_⟩
  · cases call with
    | connect user address => rfl
    | disconnect user => rfl
  · intro campo member
    rcases List.mem_append.mp member with inside | last
    · obtain ⟨value, here, rfl⟩ := List.mem_map.mp inside
      exact encode_plain (waiting.plain value here)
    · rw [List.mem_singleton.mp last]
      exact encode_plain plain
  · rwa [List.append_nil, ← written]

end Clients

/-! ## The clients and the accounts -/

structure Crowd.Inv {ι : Type} (V : Vocabulary) (c : Crowd ι) (m : Bytes → Cuenta) : Prop where
  attends : Attends V c.sys m
  lists : Lists (sessionsOf m) c.held
  shaped : ∀ i, (c.settled i).Shaped V
  waiting : ∀ i call exchange, c.talks i = some (.asks call exchange) →
    Waiting V (c.attributes i) call exchange

section Invariant
variable {ι : Type} {V : Vocabulary} {c : Crowd ι} {m m' : Bytes → Cuenta}

theorem inv_start {s : Sys} (bare : EmptyStore s.tree) (calm : s.faults = []) :
    (Crowd.start s : Crowd ι).Inv V nobody :=
  ⟨attends_nobody bare calm, lists_nobody, fun _ => .out rfl rfl, fun _ _ _ absurdity => by
    cases absurdity⟩

variable {i : ι}

theorem settled_of_none (idle : c.talks i = none) : c.settled i = c.attributes i := by
  rw [Crowd.settled, idle]
  rfl

theorem settled_of_asks {call : Call} {exchange : Exchange}
    (asks : c.talks i = some (.asks call exchange)) : c.settled i = c.attributes i := by
  rw [Crowd.settled, asks]
  rfl

variable [DecidableEq ι] {a : Attributes} {talk : Option Talk} {s : Sys}

theorem Crowd.Inv.moved (inv : c.Inv V m) (attends : Attends V s m')
    (lists : Lists (sessionsOf m') (Function.update c.held i (a.settled talk).entry))
    (shaped : (a.settled talk).Shaped V)
    (waiting : ∀ call exchange, talk = some (.asks call exchange) → Waiting V a call exchange) :
    (⟨s, Function.update c.attributes i a, Function.update c.talks i talk⟩ : Crowd ι).Inv V m' := by
  have settled : ∀ j, Crowd.settled
      ⟨s, Function.update c.attributes i a, Function.update c.talks i talk⟩ j =
        Function.update c.settled i (a.settled talk) j := by
    intro j
    by_cases own : j = i
    · subst own
      simp only [Crowd.settled, Function.update_self]
    · simp only [Crowd.settled, Function.update_of_ne own]
  refine ⟨attends, ?_, fun j => ?_, fun j call exchange here => ?_⟩
  · have held : Crowd.held
        ⟨s, Function.update c.attributes i a, Function.update c.talks i talk⟩ =
          Function.update c.held i (a.settled talk).entry := by
      funext j
      rw [Crowd.held, settled]
      by_cases own : j = i
      · rw [own, Function.update_self, Function.update_self]
      · rw [Function.update_of_ne own, Function.update_of_ne own, Crowd.held]
    rw [held]
    exact lists
  · rw [settled]
    by_cases own : j = i
    · rw [own, Function.update_self]
      exact shaped
    · rw [Function.update_of_ne own]
      exact inv.shaped j
  · by_cases own : j = i
    · subst own
      simp only [Function.update_self] at here ⊢
      exact waiting call exchange here
    · simp only [Function.update_of_ne own] at here ⊢
      exact inv.waiting j call exchange here

theorem Crowd.Inv.quiet (inv : c.Inv V m) (same : (a.settled talk).entry = c.held i)
    (shaped : (a.settled talk).Shaped V)
    (waiting : ∀ call exchange, talk = some (.asks call exchange) → Waiting V a call exchange) :
    (⟨c.sys, Function.update c.attributes i a, Function.update c.talks i talk⟩ :
      Crowd ι).Inv V m := by
  refine inv.moved inv.attends ?_ shaped waiting
  rw [same, Function.update_eq_self]
  exact inv.lists

/-! ## Every move -/

theorem inv_connects {user timestamp : String} {address : Address} (inv : c.Inv V m)
    (idle : c.talks i = none) (out : (c.attributes i).isConnected = false) (plain : PlainValue user)
    (dated : PlainValue timestamp) (understood : Understood V (Call.connect user address).request) :
    (⟨c.sys, Function.update c.attributes i ((c.attributes i).listening address),
      Function.update c.talks i (some (.asks (.connect user address)
        (connect user address.port address.host timestamp)))⟩ : Crowd ι).Inv V m := by
  have settled := settled_of_none idle
  refine inv.quiet ?_ ?_ ?_
  · rw [Crowd.held, settled, Attributes.entry_of_out out]
    exact Attributes.entry_of_out out
  · have shaped := inv.shaped i
    rw [settled] at shaped
    cases shaped with
    | out isConnected nobody => exact .out isConnected nobody
    | inside here => exact absurd (here.isConnected.symm.trans out) (by decide)
  · rintro call exchange same
    cases same
    refine ⟨⟨out, rfl⟩, ⟨timestamp, dated, ?_⟩, ?_, understood⟩
    · exact flatten_command .connect [user, address.port, address.host] timestamp
    · simp only [Call.values, List.forall_mem_cons, List.not_mem_nil, false_implies, implies_true,
        and_true]
      exact ⟨plain, address.plain.2, address.plain.1⟩

theorem inv_disconnects {user timestamp : String} {exchange : Exchange} (inv : c.Inv V m)
    (idle : c.talks i = none)
    (written : exchange ∈ disconnect (c.attributes i).toSession user timestamp)
    (dated : PlainValue timestamp) :
    (⟨c.sys, Function.update c.attributes i (c.attributes i),
      Function.update c.talks i (some (.asks (.disconnect user) exchange))⟩ :
        Crowd ι).Inv V m := by
  have settled := settled_of_none idle
  have shaped := inv.shaped i
  rw [settled] at shaped
  refine inv.quiet (by rw [Crowd.held, settled]; rfl) shaped ?_
  rintro call exchange same
  cases same
  rw [disconnect] at written
  split at written
  · rename_i caller
    rw [List.mem_singleton] at written
    cases shaped with
    | out _ nobody =>
        rw [nobody] at caller
        cases caller
    | inside here plain understood =>
        obtain rfl := Option.some.inj (here.connectedUser.symm.trans caller)
        refine ⟨caller, ⟨timestamp, dated, ?_⟩, ?_, understood_disconnect understood⟩
        · rw [written]
          exact flatten_command .disconnect [_] timestamp
        · exact List.forall_mem_singleton.mpr plain
  · cases written

theorem head_code (verdict : Directory.Verdict) :
    (code (ascii "2") verdict ++ [0]).head? = some 48 ↔ verdict = .done := by
  cases verdict <;> decide

/-- CONNECT on the two sides: the session begins on both, or on neither. -/
theorem connect_outcome (a : Attributes) (user : String) (address : Address) (account : Cuenta) :
    (account.session = none ∧ (cuentas.next (Call.connect user address).request account).session =
        some (encode address.host, encode address.port) ∧
      a.settled (some (.hears (.connect user address)
        (cuentas.tells (Call.connect user address).request account ++ [0]))) =
          a.joined user address) ∨
    ((cuentas.next (Call.connect user address).request account).session = account.session ∧
      a.settled (some (.hears (.connect user address)
        (cuentas.tells (Call.connect user address).request account ++ [0]))) = a) := by
  rcases account.connect_session (encode address.host, encode address.port) with
    ⟨done, free, now⟩ | ⟨refused, same⟩
  · exact Or.inl ⟨free, now, if_pos ((head_code _).mpr done)⟩
  · exact Or.inr ⟨same, if_neg (mt (head_code _).mp refused)⟩

theorem disconnect_outcome (a : Attributes) (user : String) (account : Cuenta) :
    ((cuentas.next (Call.disconnect user).request account).session = none ∧
      a.settled (some (.hears (.disconnect user)
        (cuentas.tells (Call.disconnect user).request account ++ [0]))) = a.left) ∨
    ((cuentas.next (Call.disconnect user).request account).session = account.session ∧
      a.settled (some (.hears (.disconnect user)
        (cuentas.tells (Call.disconnect user).request account ++ [0]))) = a) := by
  rcases account.disconnect_session with ⟨done, now⟩ | ⟨refused, same⟩
  · exact Or.inl ⟨now, if_pos ((head_code _).mpr done)⟩
  · exact Or.inr ⟨same, if_neg (mt (head_code _).mp refused)⟩

theorem sessions_served (m : Bytes → Cuenta) (call : Call) :
    sessionsOf (cuentas.apply m call.request) =
      Function.update (sessionsOf m) call.request.holder
        (cuentas.next call.request (m call.request.holder)).session := by
  rw [Keyed.Machine.apply, sessionsOf_update]
  rfl

theorem inv_served {call : Call} {exchange : Exchange} (inv : c.Inv V m)
    (asks : c.talks i = some (.asks call exchange))
    (attends : Attends V s (cuentas.apply m call.request)) :
    (⟨s, Function.update c.attributes i (c.attributes i), Function.update c.talks i
      (some (.hears call (cuentas.tells call.request (m call.request.holder) ++ [0])))⟩ :
        Crowd ι).Inv V (cuentas.apply m call.request) := by
  have waiting := inv.waiting i call exchange asks
  have settled := settled_of_asks asks
  have shaped := inv.shaped i
  have held : c.held i = (c.attributes i).entry := by rw [Crowd.held, settled]
  rw [settled] at shaped
  have unchanged : Lists (Function.update (sessionsOf m) call.request.holder
      (m call.request.holder).session) (Function.update c.held i (c.attributes i).entry) := by
    rw [← held, Function.update_eq_self,
      show (m call.request.holder).session = sessionsOf m call.request.holder from rfl,
      Function.update_eq_self]
    exact inv.lists
  have sessions := sessions_served m call
  cases call with
  | connect user address =>
      obtain ⟨out, sock⟩ := waiting.caller
      have here : ((c.attributes i).joined user address).At user address := ⟨rfl, rfl, rfl, sock⟩
      rcases connect_outcome (c.attributes i) user address
        (m (Call.connect user address).request.holder) with ⟨free, now, joins⟩ | ⟨same, stays⟩
      · refine inv.moved attends ?_ ?_ fun _ _ absurdity => by cases absurdity
        · rw [sessions, now, joins, here.entry]
          exact inv.lists.take free (held.trans (Attributes.entry_of_out out)) _
        · rw [joins]
          exact .inside here (waiting.plain user List.mem_cons_self) waiting.understood
      · refine inv.moved attends ?_ ?_ fun _ _ absurdity => by cases absurdity
        · rw [sessions, same, stays]
          exact unchanged
        · rw [stays]
          exact shaped
  | disconnect user =>
      have caller : (c.attributes i).connectedUser = some user := waiting.caller
      rcases disconnect_outcome (c.attributes i) user
        (m (Call.disconnect user).request.holder) with ⟨now, leaves⟩ | ⟨same, stays⟩
      · refine inv.moved attends ?_ ?_ fun _ _ absurdity => by cases absurdity
        · rw [sessions, now, leaves, Attributes.entry_of_out rfl]
          cases shaped with
          | out _ nobody =>
              rw [nobody] at caller
              cases caller
          | inside here _ _ =>
              obtain rfl := Option.some.inj (here.connectedUser.symm.trans caller)
              exact inv.lists.give (held.trans here.entry)
        · rw [leaves]
          exact .out rfl rfl
      · refine inv.moved attends ?_ ?_ fun _ _ absurdity => by cases absurdity
        · rw [sessions, same, stays]
          exact unchanged
        · rw [stays]
          exact shaped

omit [DecidableEq ι] in
theorem Crowd.Inv.answers {call : Call} {exchange : Exchange} {peer : Concurrent.Peer}
    (inv : c.Inv V m) (asks : c.talks i = some (.asks call exchange))
    (works : peer.env.clntCreate = true ∧ peer.env.terminalRpc = true ∧ .failed ∉ peer.writes)
    (delivers : Delivers peer.input (exchange []).flatten) :
    ∃ conn, connection c.sys peer = .ok () conn ∧
      Attends V conn.sys (cuentas.apply m call.request) ∧
      conn.sent = [cuentas.tells call.request (m call.request.holder) ++ [0]] := by
  have waiting := inv.waiting i call exchange asks
  obtain ⟨fecha, asked⟩ := waiting.asked works delivers
  have recorded : textoRpc call.request fecha = pure fecha := by
    cases call with
    | connect user address => rfl
    | disconnect user => rfl
  refine inv.attends.replies asked waiting.understood recorded ?_
  cases call with
  | connect user address => exact fun _ => rfl
  | disconnect user => exact fun _ => rfl

omit [DecidableEq ι] in
theorem Crowd.Inv.passes {peer : Concurrent.Peer} (inv : c.Inv V m)
    (defined : (Concurrent.exitPc (connection c.sys peer)).isSome = true)
    (others : ∀ r ∈ (stopped (connection c.sys peer)).served, Understood V r ∧
      (∀ username freePort freeServer, r ≠ .connect username freePort freeServer) ∧
        ∀ username, r ≠ .disconnect username) :
    ∃ m', ({ c with sys := (stopped (connection c.sys peer)).sys } : Crowd ι).Inv V m' := by
  obtain ⟨event, episode⟩ := @episode_alone (fun _ => peer) (0, ⟨0, 0⟩) c.sys defined
  obtain ⟨m', attends, same⟩ := inv.attends.passing episode (fun r served => (others r served).1)
    fun r served => (others r served).2
  exact ⟨m', attends, same ▸ inv.lists, inv.shaped, inv.waiting⟩

theorem inv_moves {c' : Crowd ι} {move : Crowd.Move ι} (inv : c.Inv V m)
    (moves : Crowd.Moves c move c') (minds : Minds V c move) : ∃ m', c'.Inv V m' := by
  cases moves with
  | connects i user address timestamp idle =>
      obtain ⟨out, plain, dated, understood⟩ := minds
      exact ⟨m, inv_connects inv idle out plain dated understood⟩
  | disconnects i user timestamp exchange idle written =>
      have later := inv_disconnects inv idle written minds
      rw [Function.update_eq_self] at later
      exact ⟨m, later⟩
  | serves i peer call exchange conn asks delivers ran =>
      obtain ⟨conn', ran', attends, sent⟩ := inv.answers asks minds delivers
      rw [ran] at ran'
      cases ran'
      have later := inv_served inv asks attends
      rw [Function.update_eq_self] at later
      rw [sent, List.flatten_singleton]
      exact ⟨_, later⟩
  | hears i call respuesta heard =>
      have settled : (c.attributes i).hear call respuesta = c.settled i := by
        rw [Crowd.settled, heard]
        rfl
      rw [settled]
      exact ⟨m, inv.quiet rfl (inv.shaped i) fun _ _ absurdity => by cases absurdity⟩
  | passes peer defined => exact inv.passes defined minds

end Invariant

/-! ## What agrees -/

def seatAt (user : String) (address : Address) : Seat :=
  ⟨encode user, encode address.host, encode address.port⟩

/-- `conectados.txt` has the entries of the clients that are connected, or will
know that they are, each user once. -/
structure Crowd.Agrees {ι : Type} (V : Vocabulary) (c : Crowd ι) : Prop where
  table : ∃ seats, Seated V c.sys.tree seats ∧ ∀ seat, seat ∈ seats ↔
    ∃ i user address, (c.settled i).At user address ∧ seatAt user address = seat
  one : ∀ i j user address address', (c.settled i).At user address →
    (c.settled j).At user address' → i = j
  connected : ∀ i, (c.settled i).isConnected = true → ∃ user address, (c.settled i).At user address
  out : ∀ i, (c.settled i).isConnected = false → (c.settled i).connectedUser = none

section Agreement
variable {ι : Type} {V : Vocabulary} {c : Crowd ι} {m : Bytes → Cuenta} {s : Sys} {i : ι}

theorem Crowd.Inv.held_iff (inv : c.Inv V m) (seat : Seat) :
    c.held i = some (seat.username, seat.place) ↔
      ∃ user address, (c.settled i).At user address ∧ seatAt user address = seat := by
  constructor
  · intro held
    cases inv.shaped i with
    | out isConnected _ =>
        rw [Crowd.held, Attributes.entry_of_out isConnected] at held
        cases held
    | inside here _ _ =>
        rw [Crowd.held, here.entry] at held
        cases seat
        cases held
        exact ⟨_, _, here, rfl⟩
  · rintro ⟨user, address, here, rfl⟩
    exact here.entry

theorem Crowd.Inv.agrees (inv : c.Inv V m) : c.Agrees V := by
  obtain ⟨seats, seated, sessions⟩ := inv.attends.seated
  refine ⟨⟨seats, seated, fun seat => ?_⟩, ?_, ?_, ?_⟩
  · rw [mem_seats_iff seated.distinct, sessions, inv.lists.listed]
    exact exists_congr fun i => inv.held_iff seat
  · intro i j user address address' first second
    exact inv.lists.one i j _ _ _ first.entry second.entry
  · intro i connected
    cases inv.shaped i with
    | out isConnected _ => exact absurd (connected.symm.trans isConnected) (by decide)
    | inside here _ _ => exact ⟨_, _, here⟩
  · intro i out
    cases inv.shaped i with
    | out _ nobody => exact nobody
    | inside here _ _ => exact absurd (here.isConnected.symm.trans out) (by decide)

variable [DecidableEq ι]

def Crowds (V : Vocabulary) (s : Sys) (moves : List (Crowd.Move ι)) (c : Crowd ι) : Prop :=
  Run (fun c move c' => Crowd.Moves c move c' ∧ Minds V c move) (Crowd.start s) moves c

theorem inv_run {moves : List (Crowd.Move ι)} (bare : EmptyStore s.tree) (calm : s.faults = [])
    (run : Crowds V s moves c) : ∃ m, c.Inv V m :=
  run.invariant (P := fun _ c => ∃ m, c.Inv V m) ⟨nobody, inv_start bare calm⟩
    fun ⟨_, inv⟩ ⟨moves, minds⟩ => inv_moves inv moves minds

end Agreement

/-! ## Two clients with one name -/

def twoPlaces : Set (Bytes × Bytes) :=
  {(ascii "127.0.0.1", ascii "4001"), (ascii "127.0.0.1", ascii "4002")}

theorem mark_ana : ∀ u ∈ ({ascii "ana"} : Set Bytes), ∀ place ∈ twoPlaces,
    ∃ b ∈ u, b ∉ place.1 ∧ b ∉ place.2 := by
  rintro u rfl place (rfl | rfl) <;> decide +kernel

theorem oneWord_ana : ∀ u ∈ ({ascii "ana"} : Set Bytes), u ≠ [] ∧ ∀ b ∈ u, isSpace b = false := by
  rintro u rfl
  exact ⟨by decide, by decide +kernel⟩

def anaTwice : Vocabulary :=
  .ofNames {ascii "ana"} twoPlaces oneWord_ana (fun _ own _ same _ => own.trans same.symm) mark_ana

def addressOf : Bool → Address
  | false => firstAddress
  | true => secondAddress

def anaRegisters : Concurrent.Peer := ⟨answering, reads (ascii "REGISTER\x00ana\x0010:00\x00"), []⟩

def anaConnects (i : Bool) : Concurrent.Peer :=
  ⟨answering, reads (connect "ana" (addressOf i).port (addressOf i).host "10:01" []).flatten, []⟩

def bothAsk (s : Sys) : Crowd Bool where
  sys := s
  attributes i := Attributes.initial.listening (addressOf i)
  talks i := some (.asks (.connect "ana" (addressOf i))
    (connect "ana" (addressOf i).port (addressOf i).host "10:01"))

def anaFresh (s : Sys) : Prop :=
  Concurrent.exitPc (connection s anaRegisters) = some .copied ∧
    (stopped (connection s anaRegisters)).served = [.register (ascii "ana")] ∧
    Concurrent.exitPc (connection (stopped (connection s anaRegisters)).sys (anaConnects false)) =
      some .copied ∧
    (stopped (connection (stopped (connection s anaRegisters)).sys (anaConnects false))).sent =
      [ascii "0\x00"] ∧
    (stopped (connection (stopped (connection s anaRegisters)).sys
      (anaConnects false))).sys.tree.access (folderOf (encode "ana")) = true

instance (s : Sys) : Decidable (anaFresh s) :=
  inferInstanceAs (Decidable (_ ∧ _ ∧ _ ∧ _ ∧ _))

theorem anaFresh_firstStart : anaFresh ⟨firstStart, [], []⟩ := by decide +kernel

theorem ok_of_copied {result : EStateM.Result Stop Conn Unit}
    (copied : Concurrent.exitPc result = some .copied) : result = .ok () (stopped result) := by
  cases result with
  | ok _ _ => rfl
  | error e c =>
      cases e with
      | returned =>
          rw [Concurrent.exitPc] at copied
          split at copied <;> cases copied
      | undefined why => cases copied
      | overrun => cases copied

theorem understood_ana (i : Bool) :
    Understood anaTwice (Call.connect "ana" (addressOf i)).request := by
  refine ⟨?_, (by decide +kernel : encode "ana" = ascii "ana"), ?_⟩
  · cases i <;>
    · refine ⟨⟨by decide, by decide⟩, fun _ _ _ same => ?_⟩
      cases same
      decide
  · cases i with
    | false => exact Or.inl (by decide +kernel : (encode firstAddress.host,
        encode firstAddress.port) = (ascii "127.0.0.1", ascii "4001"))
    | true => exact Or.inr (by decide +kernel : (encode secondAddress.host,
        encode secondAddress.port) = (ascii "127.0.0.1", ascii "4002"))

theorem Crowds.bothAsk {s s' : Sys} {moves : List (Crowd.Move Bool)}
    (run : Crowds anaTwice s moves ⟨s', fun _ => Attributes.initial, fun _ => none⟩) :
    ∃ moves, Crowds anaTwice s moves (bothAsk s') := by
  have first := Run.next run ⟨Crowd.Moves.connects false "ana" firstAddress "10:01" rfl,
    ⟨rfl, by decide, by decide, understood_ana false⟩⟩
  have second := Run.next first ⟨Crowd.Moves.connects true "ana" secondAddress "10:01" rfl,
    ⟨rfl, by decide, by decide, understood_ana true⟩⟩
  refine ⟨_, Eq.subst (motive := Crowds anaTwice s _) ?_ second⟩
  rw [Client.bothAsk, Crowd.mk.injEq]
  refine ⟨rfl, funext fun i => ?_, funext fun i => ?_⟩ <;> cases i <;> rfl

theorem crowds_bothAsk {s : Sys} (fresh : anaFresh s) : ∃ moves s' conn,
    Crowds anaTwice s moves (bothAsk s') ∧ connection s' (anaConnects false) = .ok () conn ∧
      conn.sent = [ascii "0\x00"] ∧ conn.sys.tree.access (folderOf (encode "ana")) = true := by
  obtain ⟨exits, served, copied, sent, access⟩ := fresh
  have passed : Crowds anaTwice s [.passes anaRegisters]
      (⟨(stopped (connection s anaRegisters)).sys, fun _ => Attributes.initial, fun _ => none⟩ :
        Crowd Bool) := by
    refine Run.next Run.start
      ⟨Crowd.Moves.passes anaRegisters (by rw [Crowd.start, exits]; rfl), ?_⟩
    intro r member
    have only : r ∈ (stopped (connection s anaRegisters)).served := member
    rw [served, List.mem_singleton] at only
    subst only
    refine ⟨⟨⟨⟨by decide, by decide⟩, ?_⟩, trivial⟩, ?_, ?_⟩
    · rintro _ _ _ ⟨⟩
    · rintro _ _ _ ⟨⟩
    · rintro _ ⟨⟩
  obtain ⟨moves, asked⟩ := passed.bothAsk
  exact ⟨moves, _, _, asked, ok_of_copied copied, sent, access⟩

theorem works_ana (i : Bool) : (anaConnects i).env.clntCreate = true ∧
    (anaConnects i).env.terminalRpc = true ∧ .failed ∉ (anaConnects i).writes :=
  ⟨rfl, rfl, List.not_mem_nil⟩

theorem crowds_oneJoined : ∃ moves, ∃ c : Crowd Bool,
    Crowds anaTwice ⟨firstStart, [], []⟩ moves c ∧ (c.attributes false).At "ana" firstAddress ∧
      c.talks false = none ∧ c.talks true = (bothAsk c.sys).talks true ∧
      c.sys.tree.access (folderOf (encode "ana")) = true := by
  obtain ⟨moves, s, conn, asked, ran, sent, access⟩ := crowds_bothAsk anaFresh_firstStart
  have served := Run.next asked ⟨Crowd.Moves.serves false (anaConnects false) _ _ conn rfl
    (delivers_reads _) ran, works_ana false⟩
  have heard := Run.next served ⟨Crowd.Moves.hears false (.connect "ana" (addressOf false))
    conn.sent.flatten rfl, trivial⟩
  refine ⟨_, _, heard, ?_, rfl, ?_, access⟩
  · show ((Attributes.initial.listening firstAddress).hear (.connect "ana" firstAddress)
      conn.sent.flatten).At _ _
    rw [sent]
    exact ⟨rfl, rfl, rfl, rfl⟩
  · rfl

theorem ofClients_anaTwice : OfClients anaTwice := by
  rintro ⟨username, freeServer, freePort⟩ ⟨rfl, place, _⟩
  rcases place with place | place <;> cases place
  · exact ⟨⟨"ana", ⟨"127.0.0.1", 4001, by simp⟩, by decide⟩, by decide +kernel⟩
  · exact ⟨⟨"ana", ⟨"127.0.0.1", 4002, by simp⟩, by decide⟩, by decide +kernel⟩

def anaAsksForUsers : Concurrent.Peer :=
  ⟨answering, reads (ascii "LIST_USERS\x00ana\x0010:02\x00OK\x00OK\x00"), []⟩

end DistrApp.Client
