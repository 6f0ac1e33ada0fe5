import DistrApp.Server.Comm
import DistrApp.Server.Serve

/-!
# tratar_mensaje

One handler, from the lock to its end, over a connection that delivers some
reads and takes some writes.  It stops at its last line, at one of its early
returns, or where C defines nothing more: `overrun` where a `readLine` or a
`strcat` leaves its array, `undefined` elsewhere.  Each early return keeps the
mutex and the flag as the code leaves them.
-/

set_option autoImplicit false

namespace DistrApp.Server

open Text Effects

inductive Stop
  | undefined (why : Undefined)
  | overrun
  | returned
  deriving DecidableEq

/-- What a handler finds around it: whether `clnt_create` and `terminal_rpc_1`
succeed, and what its uninitialised locals hold. -/
structure Surroundings where
  clntCreate : Bool
  terminalRpc : Bool
  res2 : Int
  description : Nat → Bytes

structure Conn where
  sys : Sys
  input : List ReadResult
  writes : List WriteResult
  sent : List Bytes
  /-- The operation, the text and the user of each successful `terminal_rpc_1`. -/
  recorded : List (UInt8 × Bytes × Bytes)
  /-- The calls of `*_serv`, with their arguments. -/
  served : List Request
  mutexMensaje : Bool
  mensajeNoCopiado : Bool
  signals : Nat
  closed : Bool

def Conn.accepted (sys : Sys) (input : List ReadResult) (writes : List WriteResult) : Conn where
  sys := sys
  input := input
  writes := writes
  sent := []
  recorded := []
  served := []
  mutexMensaje := false
  mensajeNoCopiado := true
  signals := 0
  closed := false

abbrev Handler := EStateM Stop Conn

/-! ## The calls -/

def onSys {α : Type} (op : Op α) : Handler α := fun c =>
  match op.run c.sys with
  | .ok a s => .ok a { c with sys := s }
  | .error why s => .error (.undefined why) { c with sys := s }

def lock : Handler Unit := fun c => .ok () { c with mutexMensaje := true }

def unlock : Handler Unit := fun c => .ok () { c with mutexMensaje := false }

/-- `readLine(sc, buffer, MAXSIZE)` into an array of 256 bytes that holds `""`;
`none` is the return code -1. -/
def leer : Handler (Option Bytes) := fun c =>
  match readLine 1024 c.input with
  | (.failed stored, rest) =>
      if stored.length ≤ 256 then .ok none { c with input := rest }
      else .error .overrun { c with input := rest }
  | (.endOfFile, rest) => .ok (some []) { c with input := rest }
  | (.text stored, rest) =>
      if stored.length < 256 then .ok (some stored) { c with input := rest }
      else .error .overrun { c with input := rest }

/-- Whether `sendMessage(sc, message, ...)` returns 0. -/
def enviar (message : Bytes) : Handler Bool := fun c =>
  let (ok, wire, rest) := sendMessage c.writes message
  .ok ok { c with writes := rest, sent := c.sent ++ [wire] }

/-- An early return that keeps the mutex, unless the call went well. -/
def orReturn (ok : Bool) : Handler Unit := if ok then pure () else throw .returned

/-- An early return that releases the mutex. -/
def orUnlock (ok : Bool) : Handler Unit :=
  if ok then pure () else do
    unlock
    throw .returned

def orClose (fp : Stream) (ok : Bool) : Handler Unit :=
  if ok then pure () else do
    onSys (closeHandle fp.id)
    throw .returned

def responder (message : Bytes) : Handler Unit := do
  let ok ← enviar message
  orUnlock ok

def enviarDe (fp : Stream) (message : Bytes) : Handler Unit := do
  let ok ← enviar message
  orClose fp ok

def leerOperacion : Handler Bytes := do
  let operacion ← leer
  orUnlock operacion.isSome
  return operacion.getD []

def leerCampo : Handler Bytes := do
  let campo ← leer
  orReturn campo.isSome
  return campo.getD []

def leerCampos : Nat → Handler (List Bytes)
  | 0 => pure []
  | n + 1 => do
      let campo ← leerCampo
      let campos ← leerCampos n
      return campo :: campos

def servir (request : Request) : Handler Reply := fun c =>
  onSys (serve request) { c with served := c.served ++ [request] }

def terminalRpc (env : Surroundings) (op : UInt8) (texto username : Bytes) : Handler Unit :=
  fun c =>
    if env.terminalRpc then .ok () { c with recorded := c.recorded ++ [(op, texto, username)] }
    else .error .returned c

/-- `strcat(attr3, " "); strcat(attr3, fecha);` -/
def concatenar (attr3 fecha : Bytes) : Handler Bytes :=
  let texto := attr3 ++ ascii " " ++ fecha
  if texto.length < 256 then pure texto else throw .overrun

/-! ## The operations -/

inductive Operacion
  | register
  | unregister
  | connect
  | publish
  | delete
  | listUsers
  | listContent
  | disconnect
  deriving DecidableEq

/-- The operation a name selects.  GET_FILE has a code too, `'8'`, but no case. -/
def operacionOf (operacion : Bytes) : Option Operacion :=
  if operacion = ascii "REGISTER" then some .register
  else if operacion = ascii "UNREGISTER" then some .unregister
  else if operacion = ascii "CONNECT" then some .connect
  else if operacion = ascii "PUBLISH" then some .publish
  else if operacion = ascii "DELETE" then some .delete
  else if operacion = ascii "LIST_USERS" then some .listUsers
  else if operacion = ascii "LIST_CONTENT" then some .listContent
  else if operacion = ascii "DISCONNECT" then some .disconnect
  else none

namespace Operacion

/-- The variable `op`: the digits `'0'` to `'7'`. -/
def code : Operacion → UInt8
  | register => 48
  | unregister => 49
  | connect => 50
  | publish => 51
  | delete => 52
  | listUsers => 53
  | listContent => 54
  | disconnect => 55

def attrs : Operacion → Nat
  | register => 1
  | unregister => 1
  | connect => 3
  | publish => 3
  | delete => 2
  | listUsers => 1
  | listContent => 2
  | disconnect => 1

def request (op : Operacion) (campos : List Bytes) : Request :=
  let attr2 := campos.getD 0 []
  let attr3 := campos.getD 1 []
  let attr4 := campos.getD 2 []
  match op with
  | register => .register attr2
  | unregister => .unregister attr2
  | connect => .connect attr2 attr3 attr4
  | publish => .publish attr2 attr3 attr4
  | delete => .delete attr2 attr3
  | listUsers => .listUsers attr2
  | listContent => .listContent attr2 attr3
  | disconnect => .disconnect attr2

end Operacion

/-- The text of the record: with the file name for PUBLISH and DELETE. -/
def textoRpc : Request → Bytes → Handler Bytes
  | .publish _ attr3 _, fecha => concatenar attr3 fecha
  | .delete _ attr3, fecha => concatenar attr3 fecha
  | _, fecha => pure fecha

/-- `sprintf(res_clients, "%d", n)` -/
def decimal (n : Int) : Bytes := ascii (toString n)

def saltarLineas : Nat → Bytes → Option Bytes
  | 0, text => some text
  | n + 1, text =>
      match fgets 256 text with
      | none => none
      | some (_, rest) => saltarLineas n rest

def enviarLinea (fp : Stream) : Option (Bytes × Bytes) → Handler Unit
  | none => pure ()
  | some (resCliente, _) => enviarDe fp (cString resCliente ++ [0])

/-- The body of the loop of LIST_USERS over an open conectados.txt. -/
def listarLinea (fp : Stream) (i : Nat) : Handler Unit :=
  match saltarLineas i fp.text with
  | none => orClose fp false
  | some text => do
      enviarLinea fp (fgets 256 text)
      -- an error here returns without closing the stream
      let _recibido ← leerCampo
      onSys (closeHandle fp.id)

def listarLineas : Nat → Nat → Handler Unit
  | _, 0 => pure ()
  | i, n + 1 => do
      let fp ← onSys (fopen conectadosTxt .read)
      match fp with
      | none => throw .returned
      | some fp => do
          listarLinea fp i
          listarLineas (i + 1) n

/-- LIST_USERS after its reply. -/
def listarUsuarios (env : Surroundings) (reply : Reply) : Handler Unit := do
  let res2 := reply.res2.getD env.res2
  let _recibido ← leerCampo
  -- the code stores this result in `ret2` and tests `ret`
  let _ret2 ← enviar (decimal res2 ++ [0])
  if reply.res = ascii "0" then listarLineas 0 res2.toNat else pure ()

/-- `description` after its `fgets`. -/
def leerDescripcion (env : Surroundings) (fileCount : Nat) (text : Bytes) : Handler Bytes :=
  match fgets 256 text with
  | some (description, _) => pure description
  | none =>
      if (0 : UInt8) ∈ env.description fileCount then pure (env.description fileCount)
      else throw (.undefined .overread)

/-- `snprintf(res_cliente, sizeof(res_cliente), "%s  %s", ...)` -/
def registro (dName description : Bytes) : Bytes :=
  (dName ++ ascii "  " ++ cString description).take 1023

def enviarFichero (env : Surroundings) (fileCount : Nat) (dName : Name) (fp : Stream) :
    Handler Unit := do
  let description ← leerDescripcion env fileCount fp.text
  enviarDe fp (registro dName description ++ [0])
  onSys (closeHandle fp.id)

/-- The loop over `readdir` of LIST_CONTENT. -/
def enviarFicheros (env : Surroundings) (ruta : Bytes) (res2 : Int) :
    Nat → List (Name × Node) → Handler Unit
  | _, [] => pure ()
  | fileCount, (dName, n) :: rest =>
      if res2 ≤ fileCount then pure ()
      else match n with
        | .dir => enviarFicheros env ruta res2 fileCount rest
        | .file _ => do
            let filePath ← onSys (sprintf 1024 (ruta ++ ascii "/" ++ dName))
            let fp ← onSys (fopen filePath .read)
            match fp with
            | none => enviarFicheros env ruta res2 fileCount rest
            | some fp => do
                enviarFichero env fileCount dName fp
                enviarFicheros env ruta res2 (fileCount + 1) rest

/-- The send of the count of LIST_CONTENT: `res2 + 1` bytes of `res_clients`, an
array of 256 bytes that holds the number and zeros; nothing is defined once it has
been read past its end. -/
def enviarCuenta (res2 : Int) : Handler Unit :=
  if 256 < res2 + 1 then throw (.undefined .overread)
  else responder ((decimal res2 ++ List.replicate 256 0).take (res2 + 1).toNat)

/-- LIST_CONTENT after the acknowledgement of its reply. -/
def enviarContenido (env : Surroundings) (reply : Reply) : Handler Unit := do
  let res2 := reply.res2.getD env.res2
  enviarCuenta res2
  let ruta ← onSys (sprintf 256 (folderOf (reply.resUsername.getD [])))
  let dir ← onSys (opendir ruta)
  match dir with
  | none => throw .returned
  | some dir => do
      enviarFicheros env ruta res2 0 dir.entries
      onSys (closedir dir)

/-- LIST_CONTENT after its reply. -/
def listarContenido (env : Surroundings) (reply : Reply) : Handler Unit := do
  let _recibido ← leerCampo
  enviarContenido env reply

def listar (env : Surroundings) (request : Request) (reply : Reply) : Handler Unit :=
  match request with
  | .listUsers _ => listarUsuarios env reply
  | .listContent _ _ => listarContenido env reply
  | _ => pure ()

/-- A case of the switch after the call of `*_serv`. -/
def contestar (env : Surroundings) (op : Operacion) (request : Request) (fecha : Bytes)
    (reply : Reply) : Handler Unit := do
  let texto ← textoRpc request fecha
  terminalRpc env op.code texto request.username
  responder (reply.res ++ [0])
  listar env request reply

def atender (env : Surroundings) (op : Operacion) (request : Request) (fecha : Bytes) :
    Handler Unit := do
  let reply ← servir request
  contestar env op request fecha reply

def caso (env : Surroundings) : Option Operacion → Handler Unit
  | none => pure ()
  | some op => do
      let campos ← leerCampos op.attrs
      let fecha ← leerCampo
      atender env op (op.request campos) fecha

/-- The last lines: the flag, the signal, the unlock and the close. -/
def terminar : Handler Unit := fun c =>
  .ok () { c with
    mensajeNoCopiado := false, signals := c.signals + 1, mutexMensaje := false, closed := true }

/-- From the lock to the end of the switch. -/
def cuerpo (env : Surroundings) : Handler Unit := do
  lock
  let operacion ← leerOperacion
  orReturn env.clntCreate
  caso env (operacionOf operacion)

def tratarMensaje (env : Surroundings) : Handler Unit := do
  cuerpo env
  terminar

/-- The handler ends in `c`, at its last line or at an early return. -/
def Finishes (env : Surroundings) (start c : Conn) : Prop :=
  (tratarMensaje env).run start = .ok () c ∨
    (tratarMensaje env).run start = .error .returned c

/-! ## Connections that can be computed -/

def finishes (env : Surroundings) (start : Conn) : Bool :=
  match (tratarMensaje env).run start with
  | .ok _ _ => true
  | .error .returned _ => true
  | .error (.undefined _) _ => false
  | .error .overrun _ => false

def handled (env : Surroundings) (start : Conn) : Conn := stopped ((tratarMensaje env).run start)

theorem finishes_handled {env : Surroundings} {start : Conn} (ends : finishes env start = true) :
    Finishes env start (handled env start) := by
  rw [finishes] at ends
  rw [Finishes, handled]
  split at ends
  · rename_i ran
    exact Or.inl (by rw [ran]; rfl)
  · rename_i ran
    exact Or.inr (by rw [ran]; rfl)
  · cases ends
  · cases ends

def answering : Surroundings where
  clntCreate := true
  terminalRpc := true
  res2 := 0
  description := fun _ => [0]

def reads (bytes : Bytes) : List ReadResult := bytes.map ReadResult.byte

/-! ## Running the calls -/

theorem run_onSys {α : Type} {op : Op α} {c : Conn} {a : α} {s' : Sys}
    (ran : op.run c.sys = .ok a s') : (onSys op).run c = .ok a { c with sys := s' } := by
  show onSys op c = _
  rw [onSys, ran]

theorem onSys_ok {α : Type} {op : Op α} {c c' : Conn} {a : α} (ran : (onSys op).run c = .ok a c') :
    ∃ s', op.run c.sys = .ok a s' ∧ c' = { c with sys := s' } := by
  simp only [EStateM.run, onSys] at ran
  split at ran
  · rename_i s' result
    cases ran
    exact ⟨s', result, rfl⟩
  · cases ran

theorem onSys_ne_returned {α : Type} {op : Op α} {c c' : Conn} :
    (onSys op).run c ≠ .error .returned c' := by
  intro ran
  simp only [EStateM.run, onSys] at ran
  split at ran <;> cases ran

theorem run_servir (c : Conn) (request : Request) :
    (servir request).run c =
      match (serve request).run c.sys with
      | .ok reply s => .ok reply { c with sys := s, served := c.served ++ [request] }
      | .error why s =>
          .error (.undefined why) { c with sys := s, served := c.served ++ [request] } := by
  show onSys (serve request) { c with served := c.served ++ [request] } = _
  rw [onSys]
  cases (serve request).run c.sys <;> rfl

theorem servir_of_ok {request : Request} {c : Conn} {reply : Reply} {s : Sys}
    (ran : (serve request).run c.sys = .ok reply s) :
    (servir request).run c =
      .ok reply { c with sys := s, served := c.served ++ [request] } := by
  rw [run_servir, ran]

theorem servir_ok {request : Request} {c c' : Conn} {reply : Reply}
    (ran : (servir request).run c = .ok reply c') :
    ∃ s', (serve request).run c.sys = .ok reply s' ∧
      c' = { c with sys := s', served := c.served ++ [request] } := by
  rw [run_servir] at ran
  split at ran
  · rename_i reply s' served
    cases ran
    exact ⟨s', served, rfl⟩
  · cases ran

theorem sprintf_ok {size : Nat} {text written : Bytes} {s s' : Sys}
    (ran : (sprintf size text).run s = .ok written s') : written = text ∧ s' = s := by
  unfold sprintf at ran
  split at ran
  · exact pure_ok.mp ran
  · cases ran

/-- A test of a result after which a failed call ends the handler, with the
mutex as `held` says. -/
structure Returning (test : Bool → Handler Unit) (held : Bool → Bool) : Prop where
  passes : test true = pure ()
  returns : ∀ c, (test false).run c =
    .error .returned { c with mutexMensaje := held c.mutexMensaje }

theorem returning_orReturn : Returning orReturn id := ⟨rfl, fun _ => rfl⟩

theorem returning_orUnlock : Returning orUnlock fun _ => false := ⟨rfl, fun _ => rfl⟩

def leerLinea (test : Bool → Handler Unit) : Handler Bytes := do
  let linea ← leer
  test linea.isSome
  return linea.getD []

theorem run_leerLinea {test : Bool → Handler Unit} {held : Bool → Bool}
    (returning : Returning test held) (c : Conn) : (leerLinea test).run c =
      match readLine 1024 c.input with
      | (.failed stored, rest) =>
          if stored.length ≤ 256 then
            .error .returned { c with input := rest, mutexMensaje := held c.mutexMensaje }
          else .error .overrun { c with input := rest }
      | (.endOfFile, rest) => .ok [] { c with input := rest }
      | (.text stored, rest) =>
          if stored.length < 256 then .ok stored { c with input := rest }
          else .error .overrun { c with input := rest } := by
  rw [leerLinea, EStateM.run_bind]
  have returns := fun rest => returning.returns { c with input := rest }
  simp only [EStateM.run, leer] at returns ⊢
  rcases readLine 1024 c.input with ⟨stored | _ | stored, rest⟩
  · by_cases fits : stored.length ≤ 256
    · simp only [if_pos fits, Option.isSome_none]
      exact (EStateM.run_bind ..).trans (by rw [EStateM.run, returns])
    · simp only [if_neg fits]
  · simp only [Option.isSome_some, returning.passes]
    rfl
  · by_cases fits : stored.length < 256
    · simp only [if_pos fits, Option.isSome_some, returning.passes]
      rfl
    · simp only [if_neg fits]

theorem run_leerCampo (c : Conn) : leerCampo.run c =
    match readLine 1024 c.input with
    | (.failed stored, rest) =>
        if stored.length ≤ 256 then .error .returned { c with input := rest }
        else .error .overrun { c with input := rest }
    | (.endOfFile, rest) => .ok [] { c with input := rest }
    | (.text stored, rest) =>
        if stored.length < 256 then .ok stored { c with input := rest }
        else .error .overrun { c with input := rest } :=
  run_leerLinea returning_orReturn c

/-! ## What every part keeps -/

/-- A property that no call of the handler but the reads, `*_serv` and the last
lines can end. -/
structure Stable (I : Conn → Prop) : Prop where
  sys : ∀ {c : Conn} {s : Sys}, I c → s.tree = c.sys.tree → I { c with sys := s }
  sent : ∀ {c : Conn} (rest : List WriteResult) (wire : Bytes), I c →
    I { c with writes := rest, sent := c.sent ++ [wire] }
  unlocked : ∀ {c : Conn}, I c → I { c with mutexMensaje := false }
  recorded : ∀ {c : Conn} (entry : UInt8 × Bytes × Bytes), I c →
    I { c with recorded := c.recorded ++ [entry] }

structure StableRead (I : Conn → Prop) : Prop extends Stable I where
  input : ∀ {c : Conn} (rest : List ReadResult), I c → I { c with input := rest }

def Quiet {α : Type} (op : Op α) : Prop := ∀ s, (stopped (op.run s)).tree = s.tree

theorem quiet_sprintf (size : Nat) (text : Bytes) : Quiet (sprintf size text) := by
  intro s
  unfold sprintf
  split <;> rfl

theorem quiet_closeHandle (id : Nat) : Quiet (closeHandle id) := fun _ => rfl

theorem quiet_afterFault {α : Type} {next : Bool → Op α} (quiet : ∀ fault, Quiet (next fault)) :
    Quiet (nextFault >>= next) := by
  intro s
  rw [EStateM.run_bind]
  obtain ⟨tree, faults, handles⟩ := s
  cases faults with
  | nil => exact quiet false _
  | cons fault rest => exact quiet fault _

theorem quiet_fopen_read (path : Bytes) : Quiet (fopen path .read) := by
  apply quiet_afterFault
  rintro (_ | _) s
  · simp only [Bool.false_eq_true, if_false, EStateM.run_bind, EStateM.run_get, openFile]
    cases s.tree.openRead path <;> rfl
  · rfl

theorem quiet_opendir (path : Bytes) : Quiet (opendir path) := by
  apply quiet_afterFault
  rintro (_ | _) s
  · simp only [Bool.false_eq_true, if_false, EStateM.run_bind, EStateM.run_get]
    cases s.tree.opendir path <;> rfl
  · rfl

section Keeping
variable {I : Conn → Prop}

abbrev Keeps {α : Type} (I : Conn → Prop) (op : Handler α) : Prop := Preserves I op fun _ => True

theorem Keeps.bind {α β : Type} {op : Handler α} {next : α → Handler β} (first : Keeps I op)
    (second : ∀ a, Keeps I (next a)) : Keeps I (op >>= next) :=
  Preserves.bind first fun a _ => second a

theorem Keeps.ite {c : Prop} [Decidable c] {α : Type} {left right : Handler α}
    (whenTrue : Keeps I left) (whenFalse : Keeps I right) : Keeps I (if c then left else right) :=
  Preserves.ite (fun _ => whenTrue) fun _ => whenFalse

theorem Keeps.pure {α : Type} (a : α) : Keeps I (pure a) := Preserves.pure trivial

theorem Keeps.throw {α : Type} (e : Stop) : Keeps I (throw e : Handler α) := Preserves.throw e

theorem keeps_orReturn (ok : Bool) : Keeps I (orReturn ok) :=
  Keeps.ite (Keeps.pure _) (Keeps.throw _)

theorem keeps_textoRpc (request : Request) (fecha : Bytes) : Keeps I (textoRpc request fecha) := by
  unfold textoRpc
  split
  · exact Keeps.ite (Keeps.pure _) (Keeps.throw _)
  · exact Keeps.ite (Keeps.pure _) (Keeps.throw _)
  · exact Keeps.pure _

section NoReads
variable (stable : Stable I)
include stable

theorem keeps_onSys {α : Type} {op : Op α} (quiet : Quiet op) : Keeps I (onSys op) := by
  intro c inv
  have same := quiet c.sys
  refine ⟨?_, fun _ _ _ => trivial⟩
  simp only [EStateM.run, onSys]
  cases ran : op c.sys with
  | ok a s => exact stable.sys inv (by simpa [EStateM.run, ran, stopped] using same)
  | error why s => exact stable.sys inv (by simpa [EStateM.run, ran, stopped] using same)

theorem keeps_unlock : Keeps I unlock := fun _ inv =>
  ⟨stable.unlocked inv, fun _ _ _ => trivial⟩

theorem keeps_enviar (message : Bytes) : Keeps I (enviar message) := fun _ inv =>
  ⟨stable.sent _ _ inv, fun _ _ _ => trivial⟩

theorem keeps_orUnlock (ok : Bool) : Keeps I (orUnlock ok) :=
  Keeps.ite (Keeps.pure _) (Keeps.bind (keeps_unlock stable) fun _ => Keeps.throw _)

theorem keeps_orClose (fp : Stream) (ok : Bool) : Keeps I (orClose fp ok) :=
  Keeps.ite (Keeps.pure _)
    (Keeps.bind (keeps_onSys stable (quiet_closeHandle _)) fun _ => Keeps.throw _)

theorem keeps_responder (message : Bytes) : Keeps I (responder message) :=
  Keeps.bind (keeps_enviar stable _) fun _ => keeps_orUnlock stable _

theorem keeps_enviarDe (fp : Stream) (message : Bytes) : Keeps I (enviarDe fp message) :=
  Keeps.bind (keeps_enviar stable _) fun _ => keeps_orClose stable fp _

theorem keeps_terminalRpc (env : Surroundings) (op : UInt8) (texto username : Bytes) :
    Keeps I (terminalRpc env op texto username) := by
  intro c inv
  refine ⟨?_, fun _ _ _ => trivial⟩
  simp only [EStateM.run, terminalRpc]
  split
  · exact stable.recorded _ inv
  · exact inv

theorem keeps_enviarFichero (env : Surroundings) (fileCount : Nat) (dName : Name) (fp : Stream) :
    Keeps I (enviarFichero env fileCount dName fp) := by
  refine Keeps.bind ?_ fun _ => Keeps.bind (keeps_enviarDe stable fp _) fun _ =>
    keeps_onSys stable (quiet_closeHandle _)
  unfold leerDescripcion
  split
  · exact Keeps.pure _
  · exact Keeps.ite (Keeps.pure _) (Keeps.throw _)

theorem keeps_enviarFicheros (env : Surroundings) (ruta : Bytes) (res2 : Int) (fileCount : Nat)
    (listed : List (Name × Node)) : Keeps I (enviarFicheros env ruta res2 fileCount listed) := by
  induction listed generalizing fileCount with
  | nil => exact Keeps.pure _
  | cons entry rest ih =>
      obtain ⟨dName, n⟩ := entry
      refine Keeps.ite (Keeps.pure _) ?_
      cases n with
      | dir => exact ih fileCount
      | file content =>
          refine Keeps.bind (keeps_onSys stable (quiet_sprintf _ _)) fun filePath => ?_
          refine Keeps.bind (keeps_onSys stable (quiet_fopen_read _)) fun fp => ?_
          cases fp with
          | none => exact ih fileCount
          | some fp =>
              exact Keeps.bind (keeps_enviarFichero stable env _ _ fp) fun _ => ih (fileCount + 1)

theorem keeps_enviarContenido (env : Surroundings) (reply : Reply) :
    Keeps I (enviarContenido env reply) := by
  refine Keeps.bind (Keeps.ite (Keeps.throw _) (keeps_responder stable _)) fun _ =>
    Keeps.bind (keeps_onSys stable (quiet_sprintf _ _)) fun _ =>
    Keeps.bind (keeps_onSys stable (quiet_opendir _)) fun dir => ?_
  cases dir with
  | none => exact Keeps.throw _
  | some dir =>
      exact Keeps.bind (keeps_enviarFicheros stable _ _ _ _ _) fun _ =>
        keeps_onSys stable (quiet_closeHandle _)

theorem keeps_contestar_of_listar (env : Surroundings) (op : Operacion) (request : Request)
    (fecha : Bytes) (reply : Reply) (listed : Keeps I (listar env request reply)) :
    Keeps I (contestar env op request fecha reply) :=
  Keeps.bind (keeps_textoRpc _ _) fun _ => Keeps.bind (keeps_terminalRpc stable _ _ _ _) fun _ =>
    Keeps.bind (keeps_responder stable _) fun _ => listed

end NoReads

section Reads
variable (stable : StableRead I)
include stable

theorem keeps_leer : Keeps I leer := by
  intro c inv
  refine ⟨?_, fun _ _ _ => trivial⟩
  simp only [EStateM.run, leer]
  split
  · split <;> exact stable.input _ inv
  · exact stable.input _ inv
  · split <;> exact stable.input _ inv

theorem keeps_leerOperacion : Keeps I leerOperacion :=
  Keeps.bind (keeps_leer stable) fun _ => Keeps.bind (keeps_orUnlock stable.toStable _) fun _ =>
    Keeps.pure _

theorem keeps_leerCampo : Keeps I leerCampo :=
  Keeps.bind (keeps_leer stable) fun _ => Keeps.bind (keeps_orReturn _) fun _ => Keeps.pure _

theorem keeps_leerCampos (n : Nat) : Keeps I (leerCampos n) := by
  induction n with
  | zero => exact Keeps.pure _
  | succ n ih =>
      exact Keeps.bind (keeps_leerCampo stable) fun _ => Keeps.bind ih fun _ => Keeps.pure _

theorem keeps_listarLinea (fp : Stream) (i : Nat) : Keeps I (listarLinea fp i) := by
  unfold listarLinea
  split
  · exact keeps_orClose stable.toStable fp false
  · refine Keeps.bind ?_ fun _ => Keeps.bind (keeps_leerCampo stable) fun _ =>
      keeps_onSys stable.toStable (quiet_closeHandle _)
    unfold enviarLinea
    split
    · exact Keeps.pure _
    · exact keeps_enviarDe stable.toStable fp _

theorem keeps_listarLineas (i n : Nat) : Keeps I (listarLineas i n) := by
  induction n generalizing i with
  | zero => exact Keeps.pure _
  | succ n ih =>
      refine Keeps.bind (keeps_onSys stable.toStable (quiet_fopen_read _)) fun fp => ?_
      cases fp with
      | none => exact Keeps.throw _
      | some fp => exact Keeps.bind (keeps_listarLinea stable fp i) fun _ => ih (i + 1)

theorem keeps_listar (env : Surroundings) (request : Request) (reply : Reply) :
    Keeps I (listar env request reply) := by
  unfold listar
  split
  · exact Keeps.bind (keeps_leerCampo stable) fun _ =>
      Keeps.bind (keeps_enviar stable.toStable _) fun _ =>
      Keeps.ite (keeps_listarLineas stable _ _) (Keeps.pure _)
  · exact Keeps.bind (keeps_leerCampo stable) fun _ => keeps_enviarContenido stable.toStable _ _
  · exact Keeps.pure _

theorem keeps_contestar (env : Surroundings) (op : Operacion) (request : Request) (fecha : Bytes)
    (reply : Reply) : Keeps I (contestar env op request fecha reply) :=
  keeps_contestar_of_listar stable.toStable _ _ _ _ _ (keeps_listar stable env _ _)

/-- Everything before the last lines, for a property that neither the lock nor
the `*_serv` call ends. -/
theorem keeps_cuerpo (env : Surroundings)
    (locked : ∀ {c : Conn}, I c → I { c with mutexMensaje := true })
    (served : ∀ {c : Conn} (s : Sys) (request : Request), I c →
      I { c with sys := s, served := c.served ++ [request] }) : Keeps I (cuerpo env) := by
  refine Keeps.bind (fun _ inv => ⟨locked inv, fun _ _ _ => trivial⟩) fun _ =>
    Keeps.bind (keeps_leerOperacion stable) fun operacion => Keeps.bind (keeps_orReturn _) fun _ => ?_
  cases operacionOf operacion with
  | none => exact Keeps.pure _
  | some op =>
      refine Keeps.bind (keeps_leerCampos stable _) fun campos =>
        Keeps.bind (keeps_leerCampo stable) fun fecha => Keeps.bind ?_ fun reply =>
        keeps_contestar stable env _ _ _ _
      intro c inv
      refine ⟨?_, fun _ _ _ => trivial⟩
      simp only [EStateM.run, servir, onSys]
      cases serve (op.request campos) c.sys <;> exact served _ _ inv

end Reads

end Keeping

end DistrApp.Server
