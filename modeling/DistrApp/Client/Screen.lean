import DistrApp.Client.Strings
import DistrApp.Server.Accounts

/-!
# What the user reads

Every method of client.py compares the first character of the answer with the
codes that it knows, and prints a line.  Under every schedule of the server the
line is true of the account that the request is about, at the moment when the
request is served.
-/

set_option autoImplicit false

namespace DistrApp.Client

open Text FileTree Effects Server

/-! ## The lines -/

/-- The tests of `respuesta[0]`, which raises an exception on an empty answer. -/
def answerLine (failed : String) (codes : List (Char × String)) (otherwise : String)
    (respuesta : String) : String :=
  match respuesta.toList.head? with
  | none => failed ++ "string index out of range"
  | some c => (codes.lookup c).getD otherwise

def registerLine : String → String :=
  answerLine "Exception during registration: "
    [('0', "REGISTER OK"), ('1', "USERNAME IN USE"), ('2', "REGISTER FAIL")] "REGISTER FAIL"

def unregisterLine : String → String :=
  answerLine "Exception during unregistration: "
    [('0', "UNREGISTER OK"), ('1', "USER DOES NOT EXIST"), ('2', "UNREGISTER FAIL")]
    "UNREGISTER FAIL"

def connectLine : String → String :=
  answerLine "Exception during connection: "
    [('0', "CONNECT OK"), ('1', "CONNECT FAIL, USER DOES NOT EXIST"),
      ('2', "USER ALREADY CONNECTED")] "CONNECT FAIL"

def disconnectLine : String → String :=
  answerLine "Exception during disconnection: "
    [('0', "DISCONNECT OK"), ('1', "DISCONNECT FAIL / USER DOES NOT EXIST"),
      ('2', "DISCONNECT FAIL / USER NOT CONNECTED")] "DISCONNECT FAIL"

def publishLine : String → String :=
  answerLine "Exception during publishing: "
    [('0', "PUBLISH OK"), ('1', "PUBLISH FAIL, USER DOES NOT EXIST"),
      ('2', "PUBLISH FAIL, USER NOT CONNECTED"), ('3', "PUBLISH FAIL, FILE ALREADY EXISTS")]
    "PUBLISH FAIL"

def deleteLine : String → String :=
  answerLine "Exception deleting the file: "
    [('0', "DELETE OK"), ('1', "DELETE FAIL, USER DOES NOT EXIST"),
      ('2', "DELETE FAIL, USER NOT CONNECTED"), ('3', "DELETE FAIL, CONTENT NOT PUBLISHED")]
    "DELETE FAIL"

def listusersLine : String → String :=
  answerLine "Exception listing users: "
    [('0', "LIST_USERS OK"), ('1', "LIST_USERS FAIL, USER DOES NOT EXIST"),
      ('2', "LIST_USERS FAIL, USER NOT CONNECTED")] "LIST_USERS FAIL"

def listcontentLine : String → String :=
  answerLine "Exception listing content: "
    [('0', "LIST_CONTENT OK"), ('1', "LIST_CONTENT FAIL, USER DOES NOT EXIST"),
      ('2', "LIST_CONTENT FAIL, USER NOT CONNECTED")] "LIST_CONTENT FAIL"

def lineFor : Request → String → String
  | .register _ => registerLine
  | .unregister _ => unregisterLine
  | .connect _ _ _ => connectLine
  | .disconnect _ => disconnectLine
  | .publish _ _ _ => publishLine
  | .delete _ _ => deleteLine
  | .listUsers _ => listusersLine
  | .listContent _ _ => listcontentLine

/-! ## What is true -/

/-- The line that the account calls for.  LIST_CONTENT has none of its own for a
user who is not registered. -/
def trueLine : Request → Cuenta → String
  | .register _, a => if a.files.isNone then "REGISTER OK" else "USERNAME IN USE"
  | .unregister _, a => if a.files.isNone then "USER DOES NOT EXIST" else "UNREGISTER OK"
  | .connect _ _ _, a =>
      if a.files.isNone then "CONNECT FAIL, USER DOES NOT EXIST"
      else if a.session.isNone then "CONNECT OK" else "USER ALREADY CONNECTED"
  | .disconnect _, a =>
      if a.files.isNone then "DISCONNECT FAIL / USER DOES NOT EXIST"
      else if a.session.isNone then "DISCONNECT FAIL / USER NOT CONNECTED" else "DISCONNECT OK"
  | .publish _ fileName _, a =>
      match a.files with
      | none => "PUBLISH FAIL, USER DOES NOT EXIST"
      | some files =>
          if (files fileName).isNone then "PUBLISH OK" else "PUBLISH FAIL, FILE ALREADY EXISTS"
  | .delete _ fileName, a =>
      match a.files with
      | none => "DELETE FAIL, USER DOES NOT EXIST"
      | some files =>
          if (files fileName).isNone then "DELETE FAIL, CONTENT NOT PUBLISHED" else "DELETE OK"
  | .listUsers _, a =>
      if a.files.isNone then "LIST_USERS FAIL, USER DOES NOT EXIST" else "LIST_USERS OK"
  | .listContent _ _, a => if a.files.isNone then "LIST_CONTENT FAIL" else "LIST_CONTENT OK"

/-! ## The answers -/

theorem decode_prefix {text : String} (plain : ∀ c ∈ text.toList, c.toNat < 128) {received : Bytes}
    (arrived : received <+: ascii text) (something : received ≠ []) :
    ∃ respuesta, decode received = some respuesta ∧
      respuesta.toList.head? = text.toList.head? := by
  obtain ⟨n, cut⟩ : ∃ n, received = ascii (String.ofList (text.toList.take n)) := by
    refine ⟨received.length, ?_⟩
    rw [ascii, String.toList_ofList, List.map_take]
    exact List.prefix_iff_eq_take.mp arrived
  refine ⟨String.ofList (text.toList.take n), ?_, ?_⟩
  · rw [cut, ascii_eq_encode, decode_encode]
    intro c member
    rw [String.toList_ofList] at member
    exact plain c (List.mem_of_mem_take member)
  · rw [String.toList_ofList, List.head?_take, if_neg]
    rintro rfl
    exact something cut

theorem lineFor_congr {first second : String} (request : Request)
    (same : first.toList.head? = second.toList.head?) :
    lineFor request first = lineFor request second := by
  have each : ∀ failed codes otherwise,
      answerLine failed codes otherwise first = answerLine failed codes otherwise second := by
    intro failed codes otherwise
    rw [answerLine, answerLine, same]
  cases request <;> exact each _ _ _

theorem line_of_tells (request : Request) (a : Cuenta) : ∃ text : String,
    cuentas.tells request a ++ [0] = ascii text ∧ (∀ c ∈ text.toList, c.toNat < 128) ∧
      lineFor request text = trueLine request a := by
  obtain ⟨files, session⟩ := a
  cases request with
  | register username =>
      cases files with
      | none => exact ⟨"0\x00", rfl, by simp, rfl⟩
      | some files => exact ⟨"1\x00", rfl, by simp, rfl⟩
  | unregister username =>
      cases files with
      | none => exact ⟨"1\x00", rfl, by simp, rfl⟩
      | some files => exact ⟨"0\x00", rfl, by simp, rfl⟩
  | connect username freePort freeServer =>
      cases files with
      | none => exact ⟨"1\x00", rfl, by simp, rfl⟩
      | some files =>
          cases session with
          | none => exact ⟨"0\x00", rfl, by simp, rfl⟩
          | some place => exact ⟨"2\x00", rfl, by simp, rfl⟩
  | disconnect username =>
      cases files with
      | none => exact ⟨"1\x00", rfl, by simp, rfl⟩
      | some files =>
          cases session with
          | none => exact ⟨"2\x00", rfl, by simp, rfl⟩
          | some place => exact ⟨"0\x00", rfl, by simp, rfl⟩
  | publish username fileName description =>
      cases files with
      | none => exact ⟨"1\x00", rfl, by simp, rfl⟩
      | some files =>
          cases found : files fileName with
          | none => exact ⟨"0\x00", by simp [cuentas, Account.publish, found]; rfl, by simp,
              by simp [trueLine, found]; rfl⟩
          | some text => exact ⟨"3\x00", by simp [cuentas, Account.publish, found]; rfl, by simp,
              by simp [trueLine, found]; rfl⟩
  | delete username fileName =>
      cases files with
      | none => exact ⟨"1\x00", rfl, by simp, rfl⟩
      | some files =>
          cases found : files fileName with
          | none => exact ⟨"3\x00", by simp [cuentas, Account.delete, found]; rfl, by simp,
              by simp [trueLine, found]; rfl⟩
          | some text => exact ⟨"0\x00", by simp [cuentas, Account.delete, found]; rfl, by simp,
              by simp [trueLine, found]; rfl⟩
  | listUsers username =>
      cases files with
      | none => exact ⟨"1\x00", rfl, by simp, rfl⟩
      | some files => exact ⟨"0\x00", rfl, by simp, rfl⟩
  | listContent username usernameFolder =>
      cases files with
      | none => exact ⟨"Usuario no registrado\n\x00", rfl, by simp, rfl⟩
      | some files => exact ⟨"0\x00", rfl, by simp, rfl⟩

section Schedules
variable {V : Vocabulary} {peers : AcceptLoop.Descriptor → Concurrent.Peer} {start : Sys}
  {state : Concurrent.State} {key : Concurrent.Key} {request : Request} {first received : Bytes}

end Schedules

theorem bob_connects : ∃ before result after,
    Concurrent.scriptTurns Concurrent.anaScript ⟨firstStart, [], []⟩ = before ++ ((3, ⟨3, 5⟩), result) :: after ∧
      (stopped result).served = [.connect (ascii "bob") (ascii "4002") (ascii "10.0.0.2")] ∧
      (stopped result).sent.head? = some (ascii "0\x00") :=
  ⟨[_, _, _], _, [_, _], rfl, by decide +kernel, by decide +kernel⟩

end DistrApp.Client
