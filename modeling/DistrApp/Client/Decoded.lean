import DistrApp.Client.Requests
import DistrApp.Server.Acknowledged

/-!
# What the client writes is what the server serves

For every command and plain values, the handler at the other end of each
socket calls the function of that operation with the values in their roles,
and reads every byte, the acknowledgements of the listings included.
-/

set_option autoImplicit false

namespace DistrApp.Client

open Text Server

def Command.requests (session : Session) : Command → List Request
  | register user _ => [.register (encode user)]
  | unregister user _ _ =>
      if session.connectedUser = some user then
        [.disconnect (encode user), .unregister (encode user)]
      else []
  | connect user freePort freeServer _ =>
      [.connect (encode user) (encode freePort) (encode freeServer)]
  | disconnect user _ =>
      if session.connectedUser = some user then [.disconnect (encode user)] else []
  | publish fileExists fileName description _ =>
      [.publish (encode (session.connectedUser.getD ""))
        (encode (if fileExists then fileName else "notfound")) (encode description)]
  | delete fileName _ => [.delete (encode (session.connectedUser.getD "")) (encode fileName)]
  | listusers _ => [.listUsers (encode (session.connectedUser.getD ""))]
  | listcontent user _ =>
      [.listContent (encode (session.connectedUser.getD "")) (encode user)]

/-- PUBLISH, DELETE and LIST_CONTENT are sent with a connected user. -/
def Command.Ready (session : Session) : Command → Prop
  | publish _ _ _ _ => session.isConnected = true ∧ session.connectedUser.isSome = true
  | delete _ _ => session.connectedUser.isSome = true
  | listcontent _ _ => session.connectedUser.isSome = true
  | _ => True

/-- The server serves the request, and that only, from the bytes written, however
they are cut into reads, and leaves none of them; its messages go out whole. -/
def Decoded (exchange : Exchange) (request : Request) : Prop :=
  ∀ (env : Surroundings) (s : Sys) (input : List ReadResult) (writes : List WriteResult),
    env.clntCreate = true → .failed ∉ writes →
    Delivers input (exchange (handled env (Conn.accepted s input writes)).sent).flatten →
      (handled env (Conn.accepted s input writes)).served = [request] ∧
        Delivers (handled env (Conn.accepted s input writes)).input []

/-! ## The bytes of a command -/

theorem encode_nul : encode "\x00" = [0] := by decide

theorem encode_ok : encode "OK\x00" = wire [ascii "OK"] := by decide

theorem wire_append (campos others : List Bytes) :
    wire (campos ++ others) = wire campos ++ wire others := List.flatMap_append

theorem flatten_fields (values : List String) :
    (values.map field).flatten = wire (values.map encode) := by
  rw [← List.flatMap_def, wire, List.flatMap_map]
  rfl

theorem flatten_command (op : Operacion) (values : List String) (timestamp : String) :
    (wire [op.name] :: values.map field ++ [field timestamp]).flatten =
      wire (op.name :: values.map encode ++ [encode timestamp]) := by
  have last : field timestamp = wire [encode timestamp] := by simp [field, wire, encode_nul]
  rw [List.flatten_append, List.flatten_cons, flatten_fields, List.flatten_singleton, last,
    ← wire_append, ← wire_append]
  rfl

/-! ## The acknowledgements -/

theorem ackUsers_acks (reading : Reading) (n : Nat) (received : List Bytes) :
    ∃ m ≤ received.length, (ackUsers reading n received).flatten = acks m := by
  induction n generalizing received with
  | zero => exact ⟨0, Nat.zero_le _, rfl⟩
  | succ n ih =>
      cases received with
      | nil => exact ⟨0, le_refl 0, rfl⟩
      | cons usuarioConectado received =>
          obtain ⟨m, few, later⟩ := ih received
          rw [ackUsers]
          by_cases decodes : reading.decodes usuarioConectado = true
          · rw [if_pos decodes, List.flatten_cons, encode_ok]
            by_cases parses : reading.parses usuarioConectado = true
            · exact ⟨m + 1, Nat.succ_le_succ few, by rw [if_pos parses, later]; rfl⟩
            · exact ⟨1, by simp, by rw [if_neg parses]; rfl⟩
          · exact ⟨0, Nat.zero_le _, by rw [if_neg decodes]; rfl⟩

/-- `listusers` acknowledges the reply and the lines, never the count. -/
theorem listusersAcks_acks (reading : Reading) (received : List Bytes) :
    ∃ m ≤ Operacion.due .listUsers received.length,
      (listusersAcks reading received).flatten = acks m := by
  cases received with
  | nil => exact ⟨0, le_refl 0, rfl⟩
  | cons respuesta received =>
      have one : 1 ≤ Operacion.due .listUsers (respuesta :: received).length := le_max_left _ _
      simp only [listusersAcks]
      by_cases decodes : reading.decodes respuesta = true
      · rw [if_pos decodes, List.flatten_cons, encode_ok]
        cases received with
        | nil => exact ⟨1, one, rfl⟩
        | cons numeroDeConectados usuarios =>
            simp only
            split
            · cases reading.int numeroDeConectados with
              | none => exact ⟨1, one, rfl⟩
              | some n =>
                  obtain ⟨m, few, later⟩ := ackUsers_acks reading n.toNat usuarios
                  refine ⟨m + 1, ?_, by rw [later]; rfl⟩
                  exact le_max_of_le_right (Nat.succ_le_succ few)
            · exact ⟨1, one, rfl⟩
      · exact ⟨0, Nat.zero_le _, by rw [if_neg decodes]; rfl⟩

theorem listcontentAcks_acks (reading : Reading) (received : List Bytes) :
    ∃ m ≤ Operacion.due .listContent received.length,
      (listcontentAcks reading received).flatten = acks m := by
  cases received with
  | nil => exact ⟨0, le_refl 0, rfl⟩
  | cons respuesta received =>
      rw [listcontentAcks]
      by_cases decodes : reading.decodes respuesta = true
      · refine ⟨1, le_min (le_refl 1) (by simp), ?_⟩
        rw [if_pos decodes, List.flatten_singleton, encode_ok]
        rfl
      · exact ⟨0, Nat.zero_le _, by rw [if_neg decodes]; rfl⟩

/-! ## Every command -/

theorem decoded_listing (op : Operacion) (values : List String) (timestamp : String) {name : Bytes}
    {acknowledge : Exchange} (named : name = wire [op.name]) (count : values.length = op.attrs)
    (plain : ∀ value ∈ values ++ [timestamp], PlainValue value)
    (answers : ∀ received, ∃ m ≤ op.due received.length, (acknowledge received).flatten = acks m) :
    Decoded (fun received => (name :: values.map field ++ [field timestamp]) ++ acknowledge received)
      (op.request (values.map encode)) := by
  intro env s input writes made steady delivers
  obtain ⟨m, few, answered⟩ := answers (handled env (Conn.accepted s input writes)).sent
  rw [List.flatten_append, named, flatten_command, answered] at delivers
  have fields : ∀ campo ∈ values.map encode ++ [encode timestamp], Server.Plain campo := by
    intro campo member
    rw [← List.map_singleton, ← List.map_append] at member
    obtain ⟨value, inside, rfl⟩ := List.mem_map.mp member
    exact encode_plain (plain value inside)
  obtain ⟨served, read, settled, rest⟩ := handled_settled op (by rw [List.length_map, count])
    fields made steady delivers
  rw [Nat.sub_eq_zero_of_le (le_trans few settled)] at rest
  exact ⟨served, rest⟩

theorem decoded_allAtOnce (op : Operacion) (values : List String) (timestamp : String)
    {name : Bytes} (named : name = wire [op.name]) (count : values.length = op.attrs)
    (plain : ∀ value ∈ values ++ [timestamp], PlainValue value) :
    Decoded (allAtOnce (name :: values.map field ++ [field timestamp]))
      (op.request (values.map encode)) := by
  have decoded := decoded_listing op values timestamp named count plain
    fun _ => ⟨0, Nat.zero_le _, (rfl : (allAtOnce [] []).flatten = acks 0)⟩
  intro env s input writes made steady delivers
  exact decoded env s input writes made steady (by rwa [allAtOnce, List.append_nil])

/-- The server decodes every command of the client, field by field and to the
last byte. -/
theorem commands_decoded (reading : Reading) (session : Session) (command : Command)
    (plain : ∀ value ∈ command.values, PlainValue value)
    (connected : ∀ user ∈ session.connectedUser, PlainValue user)
    (ready : command.Ready session) :
    List.Forall₂ Decoded (command.exchanges reading session) (command.requests session) := by
  cases command with
  | register user timestamp =>
      have short : ¬ 255 < user.length := by
        have bytes := length_le_encode user
        have fits := (plain user List.mem_cons_self).2.2
        omega
      simp only [Command.exchanges, register, if_neg short]
      exact .cons (decoded_allAtOnce .register [user] timestamp (by decide) rfl plain) .nil
  | unregister user disconnected timestamp =>
      have disconnects : [user, disconnected] ⊆ [user, disconnected, timestamp] := by simp
      have unregisters : [user, timestamp] ⊆ [user, disconnected, timestamp] := by simp
      simp only [Command.exchanges, unregister, disconnect, Command.requests]
      split
      · refine .cons ?_ (.cons ?_ .nil)
        · exact decoded_allAtOnce .disconnect [user] disconnected (by decide) rfl
            fun value member => plain value (disconnects member)
        · exact decoded_allAtOnce .unregister [user] timestamp (by decide) rfl
            fun value member => plain value (unregisters member)
      · exact .nil
  | connect user freePort freeServer timestamp =>
      exact .cons (decoded_allAtOnce .connect [user, freePort, freeServer] timestamp (by decide)
        rfl plain) .nil
  | disconnect user timestamp =>
      simp only [Command.exchanges, disconnect, Command.requests]
      split
      · exact .cons (decoded_allAtOnce .disconnect [user] timestamp (by decide) rfl plain) .nil
      · exact .nil
  | publish fileExists fileName description timestamp =>
      obtain ⟨user, here⟩ := Option.isSome_iff_exists.mp ready.2
      have sent : PlainValue (if fileExists then fileName else "notfound") := by
        cases fileExists with
        | true => exact plain fileName List.mem_cons_self
        | false => exact (by decide : PlainValue "notfound")
      simp only [Command.exchanges, publish, ready.1, if_true, connectedThen, here,
        Command.requests, Option.getD_some]
      refine .cons (decoded_allAtOnce .publish
        [user, if fileExists then fileName else "notfound", description] timestamp (by decide) rfl
        ?_) .nil
      exact List.forall_mem_cons.mpr ⟨connected user here, List.forall_mem_cons.mpr
        ⟨sent, (List.forall_mem_cons.mp plain).2⟩⟩
  | delete fileName timestamp =>
      obtain ⟨user, here⟩ := Option.isSome_iff_exists.mp ready
      simp only [Command.exchanges, delete, connectedThen, here, Command.requests, Option.getD_some]
      exact .cons (decoded_allAtOnce .delete [user, fileName] timestamp (by decide) rfl
        (List.forall_mem_cons.mpr ⟨connected user here, plain⟩)) .nil
  | listusers timestamp =>
      have user : PlainValue (session.connectedUser.getD "") := by
        cases here : session.connectedUser with
        | none => decide
        | some user => exact connected user here
      exact .cons (decoded_listing .listUsers [session.connectedUser.getD ""] timestamp (by decide)
        rfl (List.forall_mem_cons.mpr ⟨user, plain⟩) (listusersAcks_acks reading)) .nil
  | listcontent user timestamp =>
      obtain ⟨connectedUser, here⟩ := Option.isSome_iff_exists.mp ready
      have written : listcontent reading session user timestamp = fun received =>
          (encode "LIST_CONTENT\x00" :: [connectedUser, user].map field ++ [field timestamp]) ++
            listcontentAcks reading received := by
        funext received
        simp only [listcontent, connectedThen, here]
        rfl
      simp only [Command.exchanges, written, Command.requests, here, Option.getD_some]
      exact .cons (decoded_listing .listContent [connectedUser, user] timestamp (by decide) rfl
        (List.forall_mem_cons.mpr ⟨connected connectedUser here, plain⟩)
        (listcontentAcks_acks reading)) .nil

def countOfOne : Reading where
  decodes _ := true
  int message := if message = ascii "1\x00" then some 1 else none
  parses _ := true

def anaLists : Conn :=
  Conn.accepted ⟨treeAfter firstStart
      [.register (ascii "ana"), .connect (ascii "ana") (ascii "4001") (ascii "10.0.0.1")], [], []⟩
    (reads (ascii "LIST_USERS\x00ana\x0010:00\x00OK\x00OK\x00")) []

theorem commands_decoded_listusers :
    (handled answering anaLists).served = [.listUsers (ascii "ana")] ∧
      Delivers (handled answering anaLists).input [] := by
  have decoded := commands_decoded countOfOne ⟨some "ana", true⟩ (.listusers "10:00") (by decide)
    (by decide) trivial
  cases decoded with
  | cons first _ =>
      exact first answering _ _ [] rfl (by decide) ⟨by decide, by decide +kernel⟩

end DistrApp.Client
