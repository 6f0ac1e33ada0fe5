import DistrApp.Library.Text

/-!
# What the client writes to the server

The methods of client.py that talk to the server, as the byte strings they
pass to `sendall`, one list for each socket.  The two listings answer to the
server's messages, so theirs depends on what their `recv` calls have returned.
-/

set_option autoImplicit false

namespace DistrApp.Client

open Text

/-- `str.encode()` -/
def encode (text : String) : Bytes := text.toList.flatMap String.utf8EncodeChar

/-- `value.encode() + "\0".encode()` -/
def field (value : String) : Bytes := encode value ++ encode "\x00"

/-- `_connected_user` and `_isConnected`. -/
structure Session where
  connectedUser : Option String
  isConnected : Bool
  deriving DecidableEq

/-- How the messages of the server go through Python: which of them `decode`
accepts, the value of `int(...)` on a count, and which lines the body of the
loop of `listusers` takes apart without an exception. -/
structure Reading where
  decodes : Bytes → Bool
  int : Bytes → Option Int
  parses : Bytes → Bool

/-- What a method has written on one socket, given what it has received on it. -/
abbrev Exchange := List Bytes → List Bytes

def allAtOnce (pieces : List Bytes) : Exchange := fun _ => pieces

def register (user timestamp : String) : Exchange := allAtOnce <|
  if 255 < user.length then [] else [encode "REGISTER\x00", field user, field timestamp]

def connect (user freePort freeServer timestamp : String) : Exchange := allAtOnce
  [encode "CONNECT\x00", field user, field freePort, field freeServer, field timestamp]

def disconnect (session : Session) (user timestamp : String) : List Exchange :=
  if session.connectedUser = some user then
    [allAtOnce [encode "DISCONNECT\x00", field user, field timestamp]]
  else []

/-- `unregister` disconnects first, whatever comes of it. -/
def unregister (session : Session) (user disconnected timestamp : String) : List Exchange :=
  if session.connectedUser = some user then
    disconnect session user disconnected ++
      [allAtOnce [encode "UNREGISTER\x00", field user, field timestamp]]
  else []

/-- The connected user, whose `encode` raises when there is none. -/
def connectedThen (session : Session) (rest : String → List Bytes) : List Bytes :=
  match session.connectedUser with
  | none => []
  | some user => field user :: rest user

def publish (session : Session) (fileExists : Bool) (fileName description timestamp : String) :
    Exchange := allAtOnce <|
  encode "PUBLISH\x00" ::
    if session.isConnected then
      connectedThen session fun _ =>
        [field (if fileExists then fileName else "notfound"), field description, field timestamp]
    else []

def delete (session : Session) (fileName timestamp : String) : Exchange := allAtOnce <|
  encode "DELETE\x00" :: connectedThen session fun _ => [field fileName, field timestamp]

def ackUsers (reading : Reading) : Nat → List Bytes → List Bytes
  | 0, _ => []
  | _ + 1, [] => []
  | n + 1, usuarioConectado :: rest =>
      if reading.decodes usuarioConectado then
        encode "OK\x00" ::
          if reading.parses usuarioConectado then ackUsers reading n rest else []
      else []

/-- The acknowledgements of `listusers`. -/
def listusersAcks (reading : Reading) : List Bytes → List Bytes
  | [] => []
  | respuesta :: received =>
      if reading.decodes respuesta then
        encode "OK\x00" :: match received with
          | [] => []
          | numeroDeConectados :: usuarios =>
              if reading.decodes numeroDeConectados && respuesta.head? = some 48 then
                match reading.int numeroDeConectados with
                | none => []
                | some n => ackUsers reading n.toNat usuarios
              else []
      else []

def listusers (reading : Reading) (session : Session) (timestamp : String) : Exchange :=
  fun received =>
    [encode "LIST_USERS\x00", field (session.connectedUser.getD ""), field timestamp] ++
      listusersAcks reading received

def listcontentAcks (reading : Reading) : List Bytes → List Bytes
  | [] => []
  | respuesta :: _ => if reading.decodes respuesta then [encode "OK\x00"] else []

def listcontent (reading : Reading) (session : Session) (user timestamp : String) : Exchange :=
  fun received => encode "LIST_CONTENT\x00" ::
    connectedThen session fun _ =>
      [field user, field timestamp] ++ listcontentAcks reading received

/-! ## Commands -/

/-- A call of one of the methods, with the values that end up in its fields. -/
inductive Command
  | register (user timestamp : String)
  | unregister (user disconnected timestamp : String)
  | connect (user freePort freeServer timestamp : String)
  | disconnect (user timestamp : String)
  | publish (fileExists : Bool) (fileName description timestamp : String)
  | delete (fileName timestamp : String)
  | listusers (timestamp : String)
  | listcontent (user timestamp : String)

def Command.exchanges (reading : Reading) (session : Session) : Command → List Exchange
  | register user timestamp => [Client.register user timestamp]
  | unregister user disconnected timestamp => Client.unregister session user disconnected timestamp
  | connect user freePort freeServer timestamp =>
      [Client.connect user freePort freeServer timestamp]
  | disconnect user timestamp => Client.disconnect session user timestamp
  | publish fileExists fileName description timestamp =>
      [Client.publish session fileExists fileName description timestamp]
  | delete fileName timestamp => [Client.delete session fileName timestamp]
  | listusers timestamp => [Client.listusers reading session timestamp]
  | listcontent user timestamp => [Client.listcontent reading session user timestamp]

def Command.values : Command → List String
  | register user timestamp => [user, timestamp]
  | unregister user disconnected timestamp => [user, disconnected, timestamp]
  | connect user freePort freeServer timestamp => [user, freePort, freeServer, timestamp]
  | disconnect user timestamp => [user, timestamp]
  | publish _ fileName description timestamp => [fileName, description, timestamp]
  | delete fileName timestamp => [fileName, timestamp]
  | listusers timestamp => [timestamp]
  | listcontent user timestamp => [user, timestamp]

/-- No NUL, no newline, and at most 255 bytes. -/
def PlainValue (value : String) : Prop :=
  '\x00' ∉ value.toList ∧ '\n' ∉ value.toList ∧ (encode value).length ≤ 255

instance : DecidablePred PlainValue := fun value =>
  inferInstanceAs (Decidable ('\x00' ∉ value.toList ∧ '\n' ∉ value.toList ∧
    (encode value).length ≤ 255))

/-! ## UTF-8 -/

theorem mem_utf8EncodeChar {c : Char} {b : UInt8} (member : b ∈ String.utf8EncodeChar c)
    (small : b.toNat < 128) : c.val.toNat = b.toNat := by
  simp only [String.utf8EncodeChar] at member
  have byte : ∀ n : Nat, (UInt8.ofNat n).toNat = n % 256 := fun n => by simp
  split at member
  · rename_i ascii
    obtain rfl := List.mem_singleton.mp member
    rw [byte]
    omega
  · exfalso
    split at member
    · simp only [List.mem_cons, List.not_mem_nil, or_false] at member
      rcases member with rfl | rfl <;> rw [byte] at small <;> omega
    · split at member
      · simp only [List.mem_cons, List.not_mem_nil, or_false] at member
        rcases member with rfl | rfl | rfl <;> rw [byte] at small <;> omega
      · simp only [List.mem_cons, List.not_mem_nil, or_false] at member
        rcases member with rfl | rfl | rfl | rfl <;> rw [byte] at small <;> omega

theorem notMem_encode {value : String} {c : Char} {b : UInt8} (same : c.val.toNat = b.toNat)
    (small : b.toNat < 128) (absent : c ∉ value.toList) : b ∉ encode value := by
  intro member
  obtain ⟨d, inside, byte⟩ := List.mem_flatMap.mp member
  have equal : d = c := by
    apply Char.ext
    apply UInt32.toNat_inj.mp
    rw [mem_utf8EncodeChar byte small, same]
  exact absent (equal ▸ inside)

theorem encode_plain {value : String} (plain : PlainValue value) :
    ((0 : UInt8) ∉ encode value ∧ newline ∉ encode value) ∧ (encode value).length < 256 :=
  ⟨⟨notMem_encode (by decide) (by decide) plain.1, notMem_encode (by decide) (by decide) plain.2.1⟩,
    Nat.lt_succ_of_le plain.2.2⟩

theorem length_le_encode (value : String) : value.length ≤ (encode value).length := by
  rw [← String.length_toList, encode, List.length_flatMap]
  have positive : ∀ c : Char, 1 ≤ (String.utf8EncodeChar c).length := by
    intro c
    simp only [String.utf8EncodeChar]
    split
    · simp
    · split
      · simp
      · split <;> simp
  calc value.toList.length
      = (value.toList.map fun _ => 1).sum := by simp
    _ ≤ (value.toList.map fun c => (String.utf8EncodeChar c).length).sum :=
        List.sum_le_sum fun c _ => positive c

end DistrApp.Client
