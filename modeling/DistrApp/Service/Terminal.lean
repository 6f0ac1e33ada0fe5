import DistrApp.Library.Xdr
import DistrApp.Server.Episodes

/-!
# The terminal service

`terminal_rpc_1` carries the operation, the text and the user of a request to
the program that prints them.  The stub writes them with the XDR routines, the
dispatcher reads them with the same ones and calls the procedure, whose switch
names the operation again.  Whatever the network does, the text printed is one
line for every call that succeeds, in order, and at most one for every other;
and from the text one can read off the calls.
-/

set_option autoImplicit false

namespace DistrApp.Service

open Text Xdr Server

/-! ## The argument -/

/-- `terminal_rpc_1_argument` -/
structure Argument where
  request : Int
  timestamp : Bytes
  user : Bytes
  deriving DecidableEq

/-- The routines of the XDR library: `xdr_int`, and `xdr_string` by its bound. -/
structure Primitives where
  xdrInt : Routine Int
  xdrString : Nat → Routine Bytes

/-- What the two programs rely on: each routine reads what it has written. -/
structure Primitives.Lawful (x : Primitives) : Prop where
  xdrInt : x.xdrInt.RoundTrips fun _ => True
  xdrString : ∀ maxsize, (x.xdrString maxsize).RoundTrips fun s => (0 : UInt8) ∉ s

/-- `~0`, the bound of a string without one. -/
def unbounded : Nat := 2 ^ 32 - 1

/-- `xdr_terminal_rpc_1_argument` -/
def xdrTerminalRpc1Argument (x : Primitives) : Routine Argument where
  encode objp := do
    let request ← x.xdrInt.encode objp.request
    let timestamp ← (x.xdrString unbounded).encode objp.timestamp
    let user ← (x.xdrString unbounded).encode objp.user
    return request ++ (timestamp ++ user)
  decode stream := do
    let (request, stream) ← x.xdrInt.decode stream
    let (timestamp, stream) ← (x.xdrString unbounded).decode stream
    let (user, stream) ← (x.xdrString unbounded).decode stream
    return (⟨request, timestamp, user⟩, stream)

/-! ## The service -/

/-- The word of the `case` of `request`: the labels are `'0'` to `'7'`. -/
def palabra (request : Int) : Option Bytes :=
  if request = 48 then some (ascii "REGISTER")
  else if request = 49 then some (ascii "UNREGISTER")
  else if request = 50 then some (ascii "CONNECT")
  else if request = 51 then some (ascii "PUBLISH")
  else if request = 52 then some (ascii "DELETE")
  else if request = 53 then some (ascii "LIST_USERS")
  else if request = 54 then some (ascii "LIST_CONTENT")
  else if request = 55 then some (ascii "DISCONNECT")
  else none

/-- `printf("%s ... %s\n", user, timestamp)` -/
def impreso (palabra timestamp user : Bytes) : Bytes :=
  cString user ++ ascii " " ++ palabra ++ ascii " " ++ cString timestamp ++ ascii "\n"

/-- What `terminal_rpc_1_svc` returns and prints. -/
def terminalRpc1Svc (request : Int) (timestamp user : Bytes) : Bool × Bytes :=
  match palabra request with
  | some palabra => (true, impreso palabra timestamp user)
  | none => (true, [])

inductive Respuesta
  | void
  | result (bytes : Bytes)
  | noproc
  | decode
  | systemerr
  | nothing
  deriving DecidableEq

/-- What the dispatcher finds around it: whether `svc_sendreply` can send, and
what the union `result`, which nothing sets, holds. -/
structure Transport where
  sends : Bool
  result : Int

/-- `servidor_rpc_1`: the reply, and the text printed. -/
def servidorRpc1 (x : Primitives) (transp : Transport) (rqProc : Nat) (argument : Bytes) :
    Respuesta × Bytes :=
  if rqProc = 0 then (if transp.sends then .void else .nothing, [])
  else if rqProc = 1 then
    match (xdrTerminalRpc1Argument x).decode argument with
    | none => (.decode, [])
    | some (argp, _) =>
        let (retval, printed) := terminalRpc1Svc argp.request argp.timestamp argp.user
        if retval then
          match x.xdrInt.encode transp.result with
          | some bytes => (if transp.sends then .result bytes else .systemerr, printed)
          | none => (.systemerr, printed)
        else (.nothing, printed)
  else (.noproc, [])

/-! ## The stub -/

/-- The results of `clnt_call` that the callers can tell apart from success. -/
inductive ClntStat
  | success
  | cantEncodeArgs
  | cantDecodeRes
  | timedOut
  | procUnavail
  | cantDecodeArgs
  | systemError
  deriving DecidableEq

structure Network where
  reaches : Bool
  returns : Bool
  transp : Transport

def statOf (x : Primitives) : Respuesta → ClntStat
  | .result bytes => if (x.xdrInt.decode bytes).isSome then .success else .cantDecodeRes
  | .void => if (x.xdrInt.decode []).isSome then .success else .cantDecodeRes
  | .noproc => .procUnavail
  | .decode => .cantDecodeArgs
  | .systemerr => .systemError
  | .nothing => .timedOut

/-- `clnt_call` of a procedure with an argument: its status, and the text that
the service prints. -/
def clntCall (x : Primitives) (net : Network) (rqProc : Nat) (arg : Argument) : ClntStat × Bytes :=
  match (xdrTerminalRpc1Argument x).encode arg with
  | none => (.cantEncodeArgs, [])
  | some bytes =>
      if net.reaches then
        let (reply, printed) := servidorRpc1 x net.transp rqProc bytes
        (if net.returns then statOf x reply else .timedOut, printed)
      else (.timedOut, [])

/-- `terminal_rpc_1` -/
def terminalRpc1 (x : Primitives) (net : Network) (request : Int) (timestamp user : Bytes) :
    ClntStat × Bytes := clntCall x net 1 ⟨request, timestamp, user⟩

/-! ## The argument arrives as it was sent -/

section Calls
variable {x : Primitives}

theorem argument_is_pairs (x : Primitives) : xdrTerminalRpc1Argument x =
    (x.xdrInt.pair ((x.xdrString unbounded).pair (x.xdrString unbounded))).named
      (fun arg => (arg.request, arg.timestamp, arg.user))
      fun fields => ⟨fields.1, fields.2.1, fields.2.2⟩ := by
  rw [xdrTerminalRpc1Argument, Routine.named, Routine.pair, Routine.pair]
  congr 1
  · funext objp
    simp [Option.bind_assoc]
  · funext stream
    simp only [Option.bind_eq_bind, Option.pure_def]
    cases x.xdrInt.decode stream with
    | none => rfl
    | some first =>
        simp only [Option.bind_some]
        cases (x.xdrString unbounded).decode first.2 with
        | none => rfl
        | some second =>
            simp only [Option.bind_some]
            cases (x.xdrString unbounded).decode second.2 <;> rfl

theorem argument_roundTrips (lawful : x.Lawful) :
    (xdrTerminalRpc1Argument x).RoundTrips fun arg =>
      True ∧ (0 : UInt8) ∉ arg.timestamp ∧ (0 : UInt8) ∉ arg.user := by
  rw [argument_is_pairs]
  exact (lawful.xdrInt.pair ((lawful.xdrString unbounded).pair (lawful.xdrString unbounded))).named
    fun _ => rfl

/-! ## What is printed -/

structure Llamada where
  op : Operacion
  texto : Bytes
  usuario : Bytes
  net : Network

/-- `terminal_rpc_1(op, fecha, attr2, &result_1, clnt)` -/
def Llamada.result (x : Primitives) (c : Llamada) : ClntStat × Bytes :=
  terminalRpc1 x c.net c.op.code.toNat c.texto c.usuario

def Llamada.succeeds (x : Primitives) (c : Llamada) : Bool := (c.result x).1 = .success

def Llamada.linea (c : Llamada) : Bytes :=
  c.usuario ++ space :: (c.op.name ++ space :: (c.texto ++ [newline]))

def pantalla (x : Primitives) (calls : List Llamada) : Bytes :=
  calls.flatMap fun c => (c.result x).2

def Llamada.Clean (c : Llamada) : Prop := (0 : UInt8) ∉ c.texto ∧ (0 : UInt8) ∉ c.usuario

/-- The service's switch means what the server's does. -/
theorem palabra_code (op : Operacion) : palabra op.code.toNat = some op.name := by
  cases op <;> decide

theorem impreso_eq_linea {c : Llamada} (clean : c.Clean) :
    impreso c.op.name c.texto c.usuario = c.linea := by
  rw [impreso, cString_eq_self clean.1, cString_eq_self clean.2, Llamada.linea,
    show ascii " " = [space] by decide, show ascii "\n" = [newline] by decide]
  simp only [List.append_assoc, List.cons_append, List.nil_append]

/-- A call that arrives is printed, whether or not its caller learns of it. -/
theorem servidorRpc1_prints (lawful : x.Lawful) {c : Llamada} (clean : c.Clean) {bytes : Bytes}
    (written :
      (xdrTerminalRpc1Argument x).encode ⟨c.op.code.toNat, c.texto, c.usuario⟩ = some bytes)
    (transp : Transport) : (servidorRpc1 x transp 1 bytes).2 = c.linea := by
  have read := argument_roundTrips lawful _ bytes ⟨trivial, clean.1, clean.2⟩ written []
  rw [List.append_nil] at read
  simp only [servidorRpc1, one_ne_zero, if_false, if_true, read, terminalRpc1Svc, palabra_code]
  cases x.xdrInt.encode transp.result <;> exact impreso_eq_linea clean

theorem result_cases (lawful : x.Lawful) {c : Llamada} (clean : c.Clean) :
    (c.result x).2 = c.linea ∨ (c.result x).2 = [] ∧ c.succeeds x = false := by
  rw [Llamada.succeeds, Llamada.result, terminalRpc1, clntCall]
  cases written : (xdrTerminalRpc1Argument x).encode ⟨c.op.code.toNat, c.texto, c.usuario⟩ with
  | none => exact Or.inr ⟨rfl, rfl⟩
  | some bytes =>
      cases arrives : c.net.reaches with
      | false => exact Or.inr ⟨rfl, rfl⟩
      | true => exact Or.inl (servidorRpc1_prints lawful clean written c.net.transp)

/-- The text on the screen is a line for every call that succeeds, and for some
of the others, in the order of the calls. -/
theorem screen_names_operations (lawful : x.Lawful) {calls : List Llamada}
    (clean : ∀ c ∈ calls, c.Clean) :
    ∃ printed : List Llamada, pantalla x calls = printed.flatMap Llamada.linea ∧
      (calls.filter (Llamada.succeeds x)).Sublist printed ∧ printed.Sublist calls := by
  induction calls with
  | nil => exact ⟨[], rfl, List.Sublist.slnil, List.Sublist.slnil⟩
  | cons c rest ih =>
      obtain ⟨printed, text, least, most⟩ := ih fun d member =>
        clean d (List.mem_cons_of_mem _ member)
      have here := result_cases lawful (clean c List.mem_cons_self)
      rw [pantalla] at text
      rcases here with line | ⟨nothing, failed⟩
      · refine ⟨c :: printed, ?_, ?_, most.cons_cons c⟩
        · rw [pantalla, List.flatMap_cons, List.flatMap_cons, line, text]
        · rw [List.filter_cons]
          split
          · exact least.cons_cons c
          · exact least.cons c
      · refine ⟨printed, ?_, ?_, most.cons c⟩
        · rw [pantalla, List.flatMap_cons, nothing, text, List.nil_append]
        · rw [List.filter_cons, failed]
          exact least

end Calls

def library : Primitives := ⟨Xdr.int, Xdr.string⟩

theorem library_lawful : library.Lawful := ⟨int_roundTrips, string_roundTrips⟩

def anaCalls : List Llamada :=
  [⟨.register, ascii "01/05/2024 10:00:00", ascii "ana", ⟨true, true, ⟨true, 0⟩⟩⟩,
    ⟨.connect, ascii "01/05/2024 10:00:05", ascii "ana", ⟨true, false, ⟨true, 0⟩⟩⟩,
    ⟨.publish, ascii "01/05/2024 10:01:00", ascii "ana", ⟨false, true, ⟨true, 0⟩⟩⟩]

theorem screen_names_operations_ana :
    anaCalls.map (Llamada.succeeds library) = [true, false, false] ∧
      ∃ printed : List Llamada, pantalla library anaCalls = printed.flatMap Llamada.linea ∧
        (anaCalls.filter (Llamada.succeeds library)).Sublist printed ∧ printed.Sublist anaCalls :=
  ⟨by decide +kernel, screen_names_operations library_lawful (by unfold Llamada.Clean; decide)⟩

/-! ## Reading the screen -/

/-- A user name without blanks, and fields of one line. -/
structure Llamada.Legible (c : Llamada) : Prop where
  usuario : space ∉ c.usuario ∧ newline ∉ c.usuario
  texto : newline ∉ c.texto

theorem plain_operation (op : Operacion) : space ∉ op.name ∧ newline ∉ op.name := by
  cases op <;> decide

theorem lines_linea {c : Llamada} (legible : c.Legible) : lines c.linea = [c.linea] := by
  have whole : c.linea = (c.usuario ++ space :: (c.op.name ++ space :: c.texto)) ++ [newline] := by
    simp [Llamada.linea]
  rw [whole]
  apply lines_single
  simp [legible.usuario.2, legible.texto, (plain_operation c.op).2,
    show newline ≠ space by decide]

theorem lines_screen {printed : List Llamada} (legible : ∀ c ∈ printed, c.Legible) :
    lines (printed.flatMap Llamada.linea) = printed.map Llamada.linea := by
  induction printed with
  | nil => rfl
  | cons c rest ih =>
      have ends : Finished c.linea := by
        right
        simp [Llamada.linea, List.getLast?_append, List.getLast?_cons]
      rw [List.flatMap_cons, List.map_cons, lines_append ends,
        lines_linea (legible c List.mem_cons_self),
        ih fun d member => legible d (List.mem_cons_of_mem _ member), List.singleton_append]

theorem takeWhile_field {sep : UInt8} {first : Bytes} (absent : sep ∉ first) (rest : Bytes) :
    (first ++ sep :: rest).takeWhile (· ≠ sep) = first := by
  rw [List.takeWhile_append_of_pos, List.takeWhile_cons_of_neg (by simp), List.append_nil]
  intro b member
  simpa using fun same : b = sep => absent (same ▸ member)

theorem split_unique {sep : UInt8} {first first' rest rest' : Bytes} (absent : sep ∉ first)
    (absent' : sep ∉ first') (same : first ++ sep :: rest = first' ++ sep :: rest') :
    first = first' ∧ rest = rest' := by
  have fields : first = first' := by
    rw [← takeWhile_field absent rest, same, takeWhile_field absent']
  subst fields
  exact ⟨rfl, (List.cons.inj (List.append_cancel_left same)).2⟩

def Llamada.dicho (c : Llamada) : Operacion × Bytes × Bytes := (c.op, c.texto, c.usuario)

theorem dicho_of_linea {c d : Llamada} (legible : c.Legible) (other : d.Legible)
    (same : c.linea = d.linea) : c.dicho = d.dicho := by
  obtain ⟨user, rest⟩ := split_unique legible.usuario.1 other.usuario.1 same
  obtain ⟨name, last⟩ := split_unique (plain_operation c.op).1 (plain_operation d.op).1 rest
  have op : some c.op = some d.op := by rw [← operacionOf_name, name, operacionOf_name]
  rw [Llamada.dicho, Llamada.dicho, Option.some.inj op, List.append_cancel_right last, user]

/-- The text on the screen determines what was printed, line by line. -/
theorem screen_determines_calls {printed others : List Llamada}
    (legible : ∀ c ∈ printed, c.Legible) (legible' : ∀ c ∈ others, c.Legible)
    (same : printed.flatMap Llamada.linea = others.flatMap Llamada.linea) :
    printed.map Llamada.dicho = others.map Llamada.dicho := by
  have each : printed.map Llamada.linea = others.map Llamada.linea := by
    rw [← lines_screen legible, same, lines_screen legible']
  clear same
  induction printed generalizing others with
  | nil =>
      rw [List.map_nil, eq_comm, List.map_eq_nil_iff] at each
      rw [each]
  | cons c rest ih =>
      cases others with
      | nil => cases each
      | cons d more =>
          obtain ⟨here, later⟩ := List.cons.inj each
          rw [List.map_cons, List.map_cons,
            dicho_of_linea (legible c List.mem_cons_self) (legible' d List.mem_cons_self) here,
            ih (fun e member => legible e (List.mem_cons_of_mem _ member))
              (fun e member => legible' e (List.mem_cons_of_mem _ member)) later]

theorem legible_anaCalls : ∀ c ∈ anaCalls, c.Legible := by
  intro c member
  simp only [anaCalls, List.mem_cons, List.not_mem_nil, or_false] at member
  rcases member with rfl | rfl | rfl <;> exact ⟨by decide, by decide⟩

/-- The same three operations on connections that all work. -/
def anaAgain : List Llamada := anaCalls.map fun c => { c with net := ⟨true, true, ⟨true, 7⟩⟩ }

theorem screen_determines_calls_ana :
    anaAgain.map Llamada.dicho =
      [(.register, ascii "01/05/2024 10:00:00", ascii "ana"),
        (.connect, ascii "01/05/2024 10:00:05", ascii "ana"),
        (.publish, ascii "01/05/2024 10:01:00", ascii "ana")] := by
  have legible : ∀ c ∈ anaAgain, c.Legible := by
    intro c member
    obtain ⟨d, among, rfl⟩ := List.mem_map.mp member
    exact ⟨(legible_anaCalls d among).usuario, (legible_anaCalls d among).texto⟩
  have same : anaAgain.flatMap Llamada.linea = anaCalls.flatMap Llamada.linea := rfl
  exact screen_determines_calls legible legible_anaCalls same

end DistrApp.Service
