import DistrApp.Client.Decoded
import DistrApp.Server.Replied

/-!
# The connection of one client

The attributes of client.py that say who is connected and where, as the
commands typed into the shell change them, beside the table of a server that
has no other client.  CONNECT replaces `_serverSock` before the server has
answered, and does not ask whether somebody is connected.
-/

set_option autoImplicit false

namespace DistrApp.Client

open Text FileTree Effects Server

/-! ## The attributes -/

/-- What `getsockname` returns, as `str` writes it. -/
structure Address where
  host : String
  port : String
  plain : PlainValue host ∧ PlainValue port

structure ListeningSock where
  address : Address
  closed : Bool

structure Attributes extends Session where
  serverSock : Option ListeningSock
  /-- Where `_serverThread` accepts connections. -/
  serverThread : Option Address
  threadAddress : Option Address

def Attributes.initial : Attributes := ⟨⟨none, false⟩, none, none, none⟩

structure World where
  attributes : Attributes
  tree : FileTree

def World.start (t : FileTree) : World := ⟨Attributes.initial, t⟩

/-! ## The commands -/

/-- A connection to the server: its answer, and the tree it leaves. -/
def World.ask (w : World) (exchange : Exchange) : Option (Bytes × World) :=
  (replied w.tree (exchange []).flatten).map fun answer => (answer.1, { w with tree := answer.2 })

def World.register (w : World) (user timestamp : String) : Option World :=
  (w.ask (Client.register user timestamp)).map Prod.snd

def World.connect (w : World) (user : String) (address : Address) (timestamp : String) :
    Option World :=
  let listening : World :=
    { w with attributes := { w.attributes with serverSock := some ⟨address, false⟩ } }
  (listening.ask (Client.connect user address.port address.host timestamp)).map fun answer =>
    if answer.1.head? = some 48 then
      { answer.2 with attributes := { answer.2.attributes with
          isConnected := true
          serverThread := some address
          connectedUser := some user
          threadAddress := some address } }
    else answer.2

def World.disconnect (w : World) (user timestamp : String) : Option World :=
  match Client.disconnect w.attributes.toSession user timestamp with
  | [] => some w
  | exchange :: _ => (w.ask exchange).map fun answer =>
      if answer.1.head? = some 48 then
        { answer.2 with attributes := { answer.2.attributes with
            isConnected := false
            connectedUser := none
            serverSock := answer.2.attributes.serverSock.map fun sock => { sock with closed := true } } }
      else answer.2

def World.unregister (w : World) (user disconnected timestamp : String) : Option World :=
  if w.attributes.connectedUser = some user then
    (w.disconnect user disconnected).bind fun later =>
      (later.ask (allAtOnce [encode "UNREGISTER\x00", field user, field timestamp])).map Prod.snd
  else some w

/-- An argument of a typed line, as `split(" ")` cuts it out. -/
structure Word where
  text : String
  whole : ' ' ∉ text.toList ∧ '\n' ∉ text.toList

/-- A line typed into the shell, with what the web service and the socket give. -/
inductive Typed
  | register (user : Word) (timestamp : String)
  | unregister (user : Word) (disconnected timestamp : String)
  | connect (user : Word) (address : Address) (timestamp : String)
  | disconnect (user : Word) (timestamp : String)

def World.step (w : World) : Typed → Option World
  | .register user timestamp => w.register user.text timestamp
  | .unregister user disconnected timestamp => w.unregister user.text disconnected timestamp
  | .connect user address timestamp => w.connect user.text address timestamp
  | .disconnect user timestamp => w.disconnect user.text timestamp

/-- One command is typed, and no call fails. -/
def Types (w : World) (line : Typed) (later : World) : Prop := w.step line = some later

/-! ## Agreement with the table -/

def entryOf (user : String) (address : Address) : Bytes :=
  tableEntry (encode user) (encode address.host) (encode address.port)

structure ConnectedAs (w : World) (user : String) (address : Address) : Prop where
  connectedUser : w.attributes.connectedUser = some user
  threadAddress : w.attributes.threadAddress = some address
  serverSock : w.attributes.serverSock = some ⟨address, false⟩
  entry : connectedEntries w.tree = [entryOf user address]

/-- The table has the entry of the client, and no entry when it is not connected. -/
structure Agrees (w : World) : Prop where
  connected : w.attributes.isConnected = true → ∃ user address, ConnectedAs w user address
  disconnected : w.attributes.isConnected = false → connectedEntries w.tree = []

/-- CONNECT is typed while nobody is connected, with a name that the server reads
whole or does not know; DISCONNECT and UNREGISTER find an entry that one `fgets` reads. -/
def Careful (w : World) : Typed → Prop
  | .register _ _ => True
  | .connect user _ _ => w.attributes.isConnected = false ∧
      ('\x00' ∈ user.text.toList →
        w.tree.access (folderOf (beforeEnd (encode user.text))) = false)
  | .unregister user _ _ => w.attributes.connectedUser = some user.text →
      ∀ line ∈ connectedEntries w.tree, line.length ≤ 255
  | .disconnect user _ => w.attributes.connectedUser = some user.text →
      ∀ line ∈ connectedEntries w.tree, line.length ≤ 255

/-! ## What the server reads -/

section Asking
variable {w later : World} {respuesta : Bytes}

theorem beforeEnd_append_nul (before rest : Bytes) :
    beforeEnd (before ++ 0 :: rest) = beforeEnd before := by
  rw [beforeEnd, beforeEnd, List.takeWhile_append]
  split
  · rename_i whole
    rw [(List.takeWhile_prefix _).eq_of_length whole]
    simp [endsLine]
  · rfl

theorem ask_command (op : Operacion) (values : List String) {name : Bytes} {timestamp : String}
    (named : name = wire [op.name])
    (own : op = .register ∨ op = .unregister ∨ op = .connect ∨ op = .disconnect)
    (asked : w.ask (allAtOnce (name :: values.map field ++ [field timestamp])) =
      some (respuesta, later)) :
    ∃ reply s', (serve (op.request (lineas op.attrs (wire (values.map encode ++ [encode timestamp]))))).run
        ⟨w.tree, [], []⟩ = .ok reply s' ∧
      respuesta = reply.res ++ [0] ∧ later = { w with tree := s'.tree } := by
  obtain ⟨⟨r, t'⟩, answers, same⟩ := Option.map_eq_some_iff.mp asked
  cases same
  rw [allAtOnce, named, flatten_command, List.cons_append, ← List.singleton_append, wire_append] at answers
  have request := received_command op (wire (values.map encode ++ [encode timestamp]))
  obtain ⟨reply, s', ran, replies, tree⟩ := replied_of_received request
    (by rcases own with rfl | rfl | rfl | rfl <;> exact fun _ => rfl)
    (by rcases own with rfl | rfl | rfl | rfl <;> exact fun _ => rfl) answers
  exact ⟨reply, s', ran, replies, by rw [tree]⟩

theorem head_reply {res : Bytes} (answered : res = ascii "0" ∨ res = ascii "1" ∨ res = ascii "2") :
    (res ++ [0]).head? = some 48 ↔ res = ascii "0" := by
  rcases answered with rfl | rfl | rfl <;> decide

theorem lineas_first (n : Nat) (value : Bytes) (others : List Bytes) :
    (lineas (n + 1) (wire (value :: others))).getD 0 [] = beforeEnd value := by
  rw [show wire (value :: others) = value ++ 0 :: wire others by simp [wire], lineas,
    List.getD_cons_zero, beforeEnd_append_nul]

end Asking

/-! ## Every command keeps the agreement -/

/-- Nobody is connected and the table is empty, or the one user who is has a
folder and the only entry. -/
inductive Consistent (w : World) : Prop
  | out (isConnected : w.attributes.isConnected = false)
      (nobody : w.attributes.connectedUser = none) (empty : connectedEntries w.tree = [])
  | inside {user : String} {address : Address} (isConnected : w.attributes.isConnected = true)
      (connected : ConnectedAs w user address)
      (plain : (0 : UInt8) ∉ encode user ∧ newline ∉ encode user)
      (registered : w.tree.access (folderOf (encode user)) = true)

section Steps
variable {w later : World} {user timestamp : String} {address : Address}

theorem Consistent.agrees (consistent : Consistent w) : Agrees w := by
  cases consistent with
  | out isConnected nobody empty =>
      exact ⟨fun connected => absurd (connected.symm.trans isConnected) (by decide), fun _ => empty⟩
  | inside isConnected connected plain registered =>
      exact ⟨fun _ => ⟨_, _, connected⟩, fun out => absurd (isConnected.symm.trans out) (by decide)⟩

theorem register_step (moved : w.register user timestamp = some later) :
    later.attributes = w.attributes ∧ Grows w.tree later.tree ∧
      connectedEntries later.tree = connectedEntries w.tree := by
  obtain ⟨⟨respuesta, _⟩, asked, rfl⟩ := Option.map_eq_some_iff.mp moved
  rw [Client.register] at asked
  split at asked
  · cases asked
    exact ⟨rfl, Grows.refl _, rfl⟩
  · obtain ⟨reply, s', ran, -, rfl⟩ := ask_command .register [user] (by decide)
      (by simp) asked
    obtain ⟨grows, same⟩ := register_alone (serve_ok ran)
    exact ⟨rfl, grows, same⟩

theorem connect_request (user timestamp : String) (address : Address) :
    ∃ freePort freeServer, Operacion.request .connect (lineas (Operacion.attrs .connect)
        (wire ([user, address.port, address.host].map encode ++ [encode timestamp]))) =
          .connect (beforeEnd (encode user)) freePort freeServer ∧
      ((0 : UInt8) ∉ encode user ∧ newline ∉ encode user →
        freePort = encode address.port ∧ freeServer = encode address.host) := by
  refine ⟨_, _, congrArg (fun name => Request.connect name _ _) (lineas_first 2 _ _), fun plain => ?_⟩
  have clean : ∀ campo ∈ [encode user, encode address.port, encode address.host],
      (0 : UInt8) ∉ campo ∧ newline ∉ campo := by
    simp only [List.forall_mem_cons, List.not_mem_nil, false_implies, implies_true, and_true]
    exact ⟨plain, (encode_plain address.plain.2).1, (encode_plain address.plain.1).1⟩
  have fields := (lineas_clean clean (wire [encode timestamp])).1
  rw [← wire_append] at fields
  exact ⟨congrArg (fun campos => campos.getD 1 []) fields,
    congrArg (fun campos => campos.getD 2 []) fields⟩

theorem connect_step (empty : connectedEntries w.tree = [])
    (whole : '\x00' ∈ user.toList → w.tree.access (folderOf (beforeEnd (encode user))) = false)
    (line : '\n' ∉ user.toList) (isConnected : w.attributes.isConnected = false)
    (nobody : w.attributes.connectedUser = none)
    (moved : w.connect user address timestamp = some later) : Consistent later := by
  obtain ⟨⟨respuesta, after⟩, asked, rfl⟩ := Option.map_eq_some_iff.mp moved
  obtain ⟨reply, s', ran, rfl, rfl⟩ := ask_command .connect
    [user, address.port, address.host] (by decide) (by simp) asked
  obtain ⟨freePort, freeServer, request, exact⟩ := connect_request user timestamp address
  rw [request] at ran
  simp only
  rcases connect_alone empty ran with ⟨zero, known, registered, entry⟩ | ⟨refused, bare⟩
  · rw [if_pos ((head_reply (Or.inl zero)).mpr zero)]
    have unbroken : '\x00' ∉ user.toList := by
      intro cut
      rw [whole cut] at known
      cases known
    have plain : (0 : UInt8) ∉ encode user ∧ newline ∉ encode user :=
      ⟨notMem_encode (by decide) (by decide) unbroken, notMem_encode (by decide) (by decide) line⟩
    obtain ⟨rfl, rfl⟩ := exact plain
    rw [(beforeEnd_cut plain).1] at registered entry
    refine .inside rfl ⟨rfl, rfl, rfl, ?_⟩ plain registered
    have deliverable : (Request.connect (encode user) (encode address.port)
        (encode address.host)).Deliverable := by
      simp only [Request.Deliverable, Request.fields, Request.username, Request.others,
        List.forall_mem_cons, List.not_mem_nil, false_implies, implies_true, and_true]
      exact ⟨plain, (encode_plain address.plain.2).1, (encode_plain address.plain.1).1⟩
    show connectedEntries s'.tree = _
    rw [connectedEntries, entry]
    exact lines_tableEntry deliverable
  · have other : ¬ (reply.res ++ [0]).head? = some 48 := by
      rw [head_reply (Or.inr refused)]
      rintro zero
      rw [zero] at refused
      exact absurd refused (by decide)
    rw [if_neg other]
    exact .out isConnected nobody bare

theorem disconnect_step (here : w.attributes.connectedUser = some user)
    (entry : connectedEntries w.tree = [entryOf user address])
    (plain : (0 : UInt8) ∉ encode user ∧ newline ∉ encode user)
    (registered : w.tree.access (folderOf (encode user)) = true)
    (short : ∀ line ∈ connectedEntries w.tree, line.length ≤ 255)
    (moved : w.disconnect user timestamp = some later) :
    later.attributes.isConnected = false ∧ later.attributes.connectedUser = none ∧
      connectedEntries later.tree = [] := by
  rw [World.disconnect, Client.disconnect, if_pos here] at moved
  obtain ⟨⟨respuesta, after⟩, asked, rfl⟩ := Option.map_eq_some_iff.mp moved
  obtain ⟨reply, s', ran, rfl, rfl⟩ := ask_command .disconnect [user] (by decide)
    (by simp) asked
  have listed : entryOf user address ∈ lines ((table w.tree).getD []) := by
    show _ ∈ connectedEntries w.tree
    rw [entry]
    exact List.mem_singleton_self _
  have clean : (0 : UInt8) ∉ entryOf user address := by
    intro member
    rcases mem_tableEntry member with h | h | h | h | h
    · exact plain.1 h
    · exact (encode_plain address.plain.1).1.1 h
    · exact (encode_plain address.plain.2).1.1 h
    · exact absurd h (by decide)
    · exact absurd h (by decide)
  have request : Operacion.request .disconnect (lineas (Operacion.attrs .disconnect)
      (wire ([user].map encode ++ [encode timestamp]))) = .disconnect (encode user) :=
    congrArg Request.disconnect ((lineas_first 0 _ _).trans (beforeEnd_cut plain).1)
  rw [request] at ran
  obtain ⟨zero, gone⟩ := disconnect_alone ran registered (table_of_entry entry) clean
    (pieces_of_short listed (Nat.lt_succ_of_le (short _ listed))) (by
      rw [entryOf, tableEntry_eq, List.append_assoc]
      exact (List.prefix_append _ _).isInfix)
  simp only
  rw [if_pos ((head_reply (Or.inl zero)).mpr zero)]
  exact ⟨rfl, rfl, gone⟩

theorem disconnect_other (other : w.attributes.connectedUser ≠ some user) :
    w.disconnect user timestamp = some w := by
  rw [World.disconnect, Client.disconnect, if_neg other]

theorem Consistent.known (consistent : Consistent w) (here : w.attributes.connectedUser = some user) :
    (0 ∉ encode user ∧ newline ∉ encode user) ∧ w.tree.access (folderOf (encode user)) = true ∧
      ∃ address, connectedEntries w.tree = [entryOf user address] := by
  cases consistent with
  | out isConnected nobody empty =>
      rw [nobody] at here
      cases here
  | inside isConnected connected plain registered =>
      obtain rfl := Option.some.inj (connected.connectedUser.symm.trans here)
      exact ⟨plain, registered, _, connected.entry⟩

theorem consistent_step {line : Typed} (consistent : Consistent w) (types : Types w line later)
    (careful : Careful w line) : Consistent later := by
  cases line with
  | register user timestamp =>
      obtain ⟨same, grows, entries⟩ := register_step types
      cases consistent with
      | out isConnected nobody empty =>
          exact .out (by rw [same, isConnected]) (by rw [same, nobody]) (entries.trans empty)
      | inside isConnected connected plain registered =>
          refine .inside (by rw [same, isConnected]) ⟨?_, ?_, ?_, entries.trans connected.entry⟩ plain
            (grows.access registered)
          · rw [same, connected.connectedUser]
          · rw [same, connected.threadAddress]
          · rw [same, connected.serverSock]
  | connect user address timestamp =>
      cases consistent with
      | out isConnected nobody empty =>
          exact connect_step empty careful.2 user.whole.2 isConnected nobody types
      | inside isConnected connected plain registered =>
          exact absurd (isConnected.symm.trans careful.1) (by decide)
  | disconnect user timestamp =>
      by_cases here : w.attributes.connectedUser = some user.text
      · obtain ⟨plain, registered, address, entry⟩ := consistent.known here
        obtain ⟨isConnected, nobody, empty⟩ :=
          disconnect_step here entry plain registered (careful here) types
        exact .out isConnected nobody empty
      · rw [Types, World.step, disconnect_other here] at types
        cases types
        exact consistent
  | unregister user disconnected timestamp =>
      rw [Types, World.step, World.unregister] at types
      split at types
      · rename_i here
        obtain ⟨plain, registered, address, entry⟩ := consistent.known here
        obtain ⟨middle, first, second⟩ := Option.bind_eq_some_iff.mp types
        obtain ⟨isConnected, nobody, empty⟩ :=
          disconnect_step here entry plain registered (careful here) first
        obtain ⟨⟨respuesta, after⟩, asked, rfl⟩ := Option.map_eq_some_iff.mp second
        obtain ⟨reply, s', ran, -, rfl⟩ := ask_command .unregister [user.text]
          (by decide) (by simp) asked
        exact .out isConnected nobody (unregister_alone empty (serve_ok ran))
      · cases types
        exact consistent

end Steps

/-- In every session of such commands the attributes agree with the table. -/
theorem session_agrees {t : FileTree} (started : Started t) {typed : List Typed} {w : World}
    (run : Run (fun w line later => Types w line later ∧ Careful w line) (World.start t) typed w) :
    Agrees w := by
  have consistent : Consistent w := by
    refine run.invariant (P := fun _ w => Consistent w) ?_ ?_
    · refine .out rfl rfl ?_
      show connectedEntries t = []
      rw [connectedEntries, started.2]
      rfl
    · rintro past middle line later here ⟨types, careful⟩
      exact consistent_step here types careful
  exact consistent.agrees

/-! ## Sessions that can be computed -/

def typedAll (allowed : World → Typed → Bool) (w : World) : List Typed → Option World
  | [] => some w
  | line :: rest =>
      if allowed w line then (w.step line).bind fun later => typedAll allowed later rest else none

theorem run_of_typedAll (step : World → Typed → World → Prop) {allowed : World → Typed → Bool}
    (sound : ∀ w line later, Types w line later → allowed w line = true → step w line later)
    {typed : List Typed} :
    ∀ {w later : World}, typedAll allowed w typed = some later → Run step w typed later := by
  induction typed with
  | nil =>
      intro w later same
      cases same
      exact Run.start
  | cons line rest ih =>
      intro w later ends
      rw [typedAll] at ends
      split at ends
      · rename_i here
        obtain ⟨middle, first, second⟩ := Option.bind_eq_some_iff.mp ends
        exact Run.cons (sound _ _ _ first here) (ih second)
      · cases ends

instance (w : World) : DecidablePred (Careful w)
  | .register _ _ => isTrue trivial
  | .connect _ _ _ => inferInstanceAs (Decidable (_ ∧ (_ → _)))
  | .unregister _ _ _ => inferInstanceAs (Decidable (_ → _))
  | .disconnect _ _ => inferInstanceAs (Decidable (_ → _))

def ana : Word := ⟨"ana", by decide⟩

def firstAddress : Address := ⟨"127.0.0.1", "4001", by decide⟩
def secondAddress : Address := ⟨"127.0.0.1", "4002", by decide⟩

def anaReturns : List Typed :=
  [.register ana "10:00", .connect ana firstAddress "10:01", .disconnect ana "10:02",
    .connect ana secondAddress "10:03", .unregister ana "10:04" "10:05"]

theorem session_agrees_ana : ∃ w, Run (fun w line later => Types w line later ∧ Careful w line)
    (World.start firstStart) anaReturns w ∧ Agrees w := by
  have typed : (typedAll (fun w line => decide (Careful w line)) (World.start firstStart)
      anaReturns).isSome = true := by decide +kernel
  obtain ⟨w, ends⟩ := Option.isSome_iff_exists.mp typed
  have run := run_of_typedAll (fun w line later => Types w line later ∧ Careful w line)
    (fun w line later types allowed => ⟨types, of_decide_eq_true allowed⟩) ends
  exact ⟨w, run, session_agrees (by decide) run⟩

/-- CONNECT, typed again, is refused; the new socket has replaced the old one. -/
theorem second_connect_replaces_socket :
    ¬ ∀ (t : FileTree) (typed : List Typed) (w : World), Started t →
      Run Types (World.start t) typed w → Agrees w := by
  intro agree
  have twice : (typedAll (fun _ _ => true) (World.start firstStart) [.register ana "10:00",
      .connect ana firstAddress "10:01", .connect ana secondAddress "10:02"]).map (fun w =>
        (w.attributes.isConnected, w.attributes.serverSock.map fun sock => sock.address.port,
          w.attributes.threadAddress.map Address.port)) =
      some (true, some "4002", some "4001") := by decide +kernel
  obtain ⟨w, ends, seen⟩ := Option.map_eq_some_iff.mp twice
  obtain ⟨isConnected, ports⟩ := Prod.mk.inj seen
  obtain ⟨serverSock, threadAddress⟩ := Prod.mk.inj ports
  obtain ⟨user, address, connected⟩ := (agree firstStart _ w (by decide)
    (run_of_typedAll Types (fun _ _ _ types _ => types) ends)).connected isConnected
  rw [connected.serverSock] at serverSock
  rw [connected.threadAddress] at threadAddress
  have same : "4002" = "4001" :=
    (Option.some.inj serverSock).symm.trans (Option.some.inj threadAddress)
  exact absurd same (by decide)

end DistrApp.Client
