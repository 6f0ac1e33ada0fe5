import DistrApp.Server.Acknowledged
import DistrApp.Server.Listing

/-!
# What the listings send when nothing fails

The messages of LIST_USERS and LIST_CONTENT on a connection that takes every
write and delivers the acknowledgements: `Talking` follows the handler from call
to call.
-/

set_option autoImplicit false

namespace DistrApp.Server

open Text FileTree Effects

/-- So far these messages have been sent and these bytes are to come; neither a
call nor a write is going to fail. -/
structure Talking (t : FileTree) (bytes : Bytes) (sent : List Bytes) (c : Conn) : Prop where
  tree : c.sys.tree = t
  calm : c.sys.faults = []
  steady : .failed ∉ c.writes
  delivers : Delivers c.input bytes
  sent : c.sent = sent

section Talking
variable {t : FileTree} {bytes : Bytes} {sent : List Bytes}

theorem Talking.with_sys {c : Conn} (talking : Talking t bytes sent c) {s : Sys}
    (tree : s.tree = c.sys.tree) (faults : s.faults = []) :
    Talking t bytes sent { c with sys := s } :=
  ⟨tree.trans talking.tree, faults, talking.steady, talking.delivers, talking.sent⟩

theorem gives_enviar (message : Bytes) :
    Gives (Talking t bytes sent) (enviar message) true (Talking t bytes (sent ++ [message])) := by
  intro c talking
  obtain ⟨whole, wire, steady⟩ := sendMessage_whole talking.steady message
  refine ⟨{ c with
    writes := (sendMessage c.writes message).2.2, sent := c.sent ++ [message] }, ?_, talking.tree,
    talking.calm, steady, talking.delivers, by rw [talking.sent]⟩
  simp only [EStateM.run, enviar, whole, wire]

theorem gives_responder (message : Bytes) :
    Gives (Talking t bytes sent) (responder message) () (Talking t bytes (sent ++ [message])) :=
  Gives.bind (gives_enviar message) (Gives.pure ())

theorem gives_enviarDe (fp : Stream) (message : Bytes) :
    Gives (Talking t bytes sent) (enviarDe fp message) () (Talking t bytes (sent ++ [message])) :=
  Gives.bind (gives_enviar message) (Gives.pure ())

theorem gives_leerCampo (fits : (beforeEnd bytes).length < 256) :
    Gives (Talking t bytes sent) leerCampo (beforeEnd bytes)
      (Talking t (afterEnd bytes) sent) := by
  intro c talking
  obtain ⟨rest, delivers, ran⟩ := (leerCampo_delivers talking.delivers).1 fits
  exact ⟨_, ran, talking.tree, talking.calm, talking.steady, delivers, talking.sent⟩

theorem gives_close (id : Nat) :
    Gives (Talking t bytes sent) (onSys (closeHandle id)) () (Talking t bytes sent) := by
  intro c talking
  exact ⟨_, rfl, talking.with_sys rfl talking.calm⟩

theorem gives_sprintf {size : Nat} {text : Bytes} (fits : text.length < size) :
    Gives (Talking t bytes sent) (onSys (sprintf size text)) text (Talking t bytes sent) := by
  intro c talking
  refine ⟨c, ?_, talking⟩
  rw [sprintf, if_pos fits]
  rfl

theorem neverReturns_sprintf {size : Nat} {text : Bytes} (long : size ≤ text.length) :
    NeverReturns (Talking t bytes sent) (onSys (sprintf size text)) := by
  intro c talking
  refine ⟨.undefined .overflow, c, ?_⟩
  rw [sprintf, if_neg (not_lt.mpr long)]
  rfl

theorem finds_fopen {path : Bytes} {file : Path} {text : Bytes}
    (opened : t.openRead path = some (file, text)) :
    Finds (Talking t bytes sent) (onSys (fopen path .read))
      (fun stream => ∃ fp, stream = some fp ∧ fp.text = text) (Talking t bytes sent) := by
  intro c talking
  obtain ⟨s, ran, tree, faults⟩ := fopen_read_run c.sys path
  rw [talking.calm, talking.tree, opened] at ran
  exact ⟨_, _, run_onSys ran, ⟨_, rfl, rfl⟩,
    talking.with_sys tree (faults.trans (by rw [talking.calm]; rfl))⟩

theorem finds_opendir {path : Bytes} {entries : List (Name × Node)}
    (opened : t.opendir path = some entries) :
    Finds (Talking t bytes sent) (onSys (opendir path))
      (fun dir => ∃ d, dir = some d ∧ d.entries = entries) (Talking t bytes sent) := by
  intro c talking
  obtain ⟨s, ran, tree, faults⟩ := opendir_faulty_run c.sys path
  rw [talking.calm, talking.tree, opened] at ran
  exact ⟨_, _, run_onSys ran, ⟨_, rfl, rfl⟩,
    talking.with_sys tree (faults.trans (by rw [talking.calm]; rfl))⟩

end Talking

/-! ## LIST_USERS -/

section Users
variable {t : FileTree} {sent : List Bytes}

def lineMessage (resCliente : Bytes) : Bytes := cString resCliente ++ [0]

theorem gives_listarLinea {bytes : Bytes} (fits : (beforeEnd bytes).length < 256) {fp : Stream}
    {i : Nat} {line : Bytes} {rest : List Bytes}
    (here : (pieces 256 fp.text).drop i = line :: rest) :
    Gives (Talking t bytes sent) (listarLinea fp i) ()
      (Talking t (afterEnd bytes) (sent ++ [lineMessage line])) := by
  have enough : i ≤ (pieces 256 fp.text).length := by
    by_contra beyond
    rw [List.drop_eq_nil_of_le (by omega)] at here
    cases here
  obtain ⟨text, skipped, left⟩ := saltarLineas_pieces enough
  obtain ⟨more, read⟩ := fgets_of_pieces (left.trans here)
  simp only [listarLinea, skipped, read, enviarLinea]
  exact Gives.bind (gives_enviarDe fp _) <| Gives.bind (gives_leerCampo fits) (gives_close fp.id)

/-- The loop sends the pieces of the table that are left, and reads one
acknowledgement for each. -/
theorem gives_listarLineas {file : Path} {text : Bytes}
    (opened : t.openRead conectadosTxt = some (file, text)) (n : Nat) :
    ∀ {i : Nat} {bytes : Bytes} {sent : List Bytes}, i + n = (pieces 256 text).length →
      (∀ campo ∈ lineas n bytes, campo.length < 256) →
      Gives (Talking t bytes sent) (listarLineas i n) ()
        (Talking t (resto n bytes) (sent ++ ((pieces 256 text).drop i).map lineMessage)) := by
  induction n with
  | zero =>
      intro i bytes sent whole _
      rw [List.drop_eq_nil_of_le (by omega), List.map_nil, List.append_nil]
      exact Gives.pure ()
  | succ n ih =>
      intro i bytes sent whole fits
      have inside : i < (pieces 256 text).length := by omega
      have later := @ih (i + 1) (afterEnd bytes) (sent ++ [lineMessage (pieces 256 text)[i]])
        (by omega) fun campo member => fits campo (List.mem_cons_of_mem _ member)
      rw [List.drop_eq_getElem_cons inside, List.map_cons, ← List.singleton_append,
        ← List.append_assoc]
      refine (finds_fopen opened).gives ?_
      rintro _ ⟨fp, rfl, rfl⟩
      exact Gives.bind (gives_listarLinea (fits _ List.mem_cons_self)
        (List.drop_eq_getElem_cons inside)) later

def usersMessages (text : Bytes) : List Bytes :=
  (ascii "0" ++ [0]) :: (decimal (pieces 256 text).length ++ [0]) ::
    (pieces 256 text).map lineMessage

theorem gives_listarUsuarios {file : Path} {text bytes : Bytes} {env : Surroundings}
    {resUsername : Option Bytes} (opened : t.openRead conectadosTxt = some (file, text))
    (fits : ∀ campo ∈ lineas (1 + (pieces 256 text).length) bytes, campo.length < 256) :
    Gives (Talking t bytes [ascii "0" ++ [0]])
      (listarUsuarios env ⟨ascii "0", some (pieces 256 text).length, resUsername⟩) ()
      (Talking t (resto (1 + (pieces 256 text).length) bytes) (usersMessages text)) := by
  rw [Nat.add_comm, lineas] at fits
  have first := fits _ List.mem_cons_self
  have each : Gives (Talking t (afterEnd bytes)
      [ascii "0" ++ [0], decimal (pieces 256 text).length ++ [0]])
      (listarLineas 0 (pieces 256 text).length) () _ :=
    gives_listarLineas opened _ (Nat.zero_add _)
      fun campo member => fits campo (List.mem_cons_of_mem _ member)
  rw [Nat.add_comm 1]
  refine Gives.bind (gives_leerCampo first) (Gives.bind (gives_enviar _) ?_)
  rw [if_pos rfl]
  exact each

end Users

/-! ## LIST_CONTENT -/

def fileMessage (dName : Name) (content : Bytes) : Bytes :=
  registro dName (cutPiece 255 content).1 ++ [0]

def fileMessages (listed : List (Name × Node)) : List Bytes :=
  listed.filterMap fun
    | (_, .dir) => none
    | (dName, .file content) => some (fileMessage dName content)

/-- The file's path fits `file_path` and there is something to read in it. -/
def Listable (ruta : Bytes) (entry : Name × Node) : Prop :=
  ∀ content, entry.2 = .file content →
    (ruta ++ ascii "/" ++ entry.1).length < 1024 ∧ content ≠ []

section Files
variable {t : FileTree} {bytes : Bytes} {ruta : Bytes} {folder : Path}

theorem length_fileMessages (listed : List (Name × Node)) :
    (fileMessages listed).length = (regularEntries listed).length := by
  induction listed with
  | nil => rfl
  | cons entry rest ih =>
      obtain ⟨dName, _ | content⟩ := entry
      · simpa [fileMessages, regularEntries] using ih
      · simpa [fileMessages, regularEntries] using ih

theorem gives_enviarFichero {sent : List Bytes} (env : Surroundings) (fileCount : Nat)
    (dName : Name) {fp : Stream} (some_text : fp.text ≠ []) :
    Gives (Talking t bytes sent) (enviarFichero env fileCount dName fp) ()
      (Talking t bytes (sent ++ [fileMessage dName fp.text])) := by
  have read : leerDescripcion env fileCount fp.text = pure (cutPiece 255 fp.text).1 := by
    rw [leerDescripcion, fgets, if_neg some_text]
  rw [enviarFichero, read, pure_bind]
  exact Gives.bind (gives_enviarDe fp _) (gives_close fp.id)

theorem gives_enviarFicheros (env : Surroundings) (nonempty : ruta ≠ [])
    (resolved : t.resolve ruta = some folder) (res2 : Nat) (listed : List (Name × Node)) :
    ∀ {fileCount : Nat} {sent : List Bytes},
      (∀ e ∈ listed, t.node (folder ++ [e.1]) = some e.2) → (∀ e ∈ listed, Listable ruta e) →
      fileCount + (regularEntries listed).length = res2 →
      Gives (Talking t bytes sent) (enviarFicheros env ruta res2 fileCount listed) ()
        (Talking t bytes (sent ++ fileMessages listed)) := by
  induction listed with
  | nil =>
      intro fileCount sent _ _ _
      rw [fileMessages, List.filterMap_nil, List.append_nil]
      exact Gives.pure ()
  | cons entry rest ih =>
      intro fileCount sent stored fits count
      have storedRest : ∀ e ∈ rest, t.node (folder ++ [e.1]) = some e.2 :=
        fun e member => stored e (List.mem_cons_of_mem _ member)
      have fitsRest : ∀ e ∈ rest, Listable ruta e :=
        fun e member => fits e (List.mem_cons_of_mem _ member)
      obtain ⟨dName, _ | content⟩ := entry
      · have fewer : fileCount + (regularEntries rest).length = res2 := by
          simpa [regularEntries] using count
        unfold enviarFicheros
        split
        · rename_i all
          have none_left : (regularEntries rest).length = 0 := by omega
          rw [← length_fileMessages, List.length_eq_zero_iff] at none_left
          rw [show fileMessages ((dName, .dir) :: rest) = fileMessages rest from rfl, none_left,
            List.append_nil]
          exact Gives.pure ()
        · exact ih storedRest fitsRest fewer
      · have more : fileCount + 1 + (regularEntries rest).length = res2 := by
          rw [← count]
          simp only [regularEntries, List.filter_cons]
          simp
          omega
        obtain ⟨short, some_text⟩ := fits _ List.mem_cons_self content rfl
        unfold enviarFicheros
        rw [if_neg (by omega)]
        refine Gives.bind (gives_sprintf short) ?_
        refine (finds_fopen
          (openRead_entry nonempty resolved (stored _ List.mem_cons_self))).gives ?_
        rintro _ ⟨fp, rfl, rfl⟩
        have later := @ih (fileCount + 1) (sent ++ [fileMessage dName fp.text]) storedRest fitsRest more
        rw [List.append_assoc] at later
        exact Gives.bind (gives_enviarFichero env fileCount dName some_text) later

/-- A path that does not fit is reached when all the files are. -/
theorem neverReturns_enviarFicheros (env : Surroundings) (nonempty : ruta ≠ [])
    (resolved : t.resolve ruta = some folder) (res2 : Nat) (listed : List (Name × Node)) :
    ∀ {fileCount : Nat} {sent : List Bytes},
      (∀ e ∈ listed, t.node (folder ++ [e.1]) = some e.2) →
      (∀ e ∈ listed, ∀ content, e.2 = .file content → content ≠ []) →
      (∃ e ∈ listed, ∃ content, e.2 = .file content ∧
        1024 ≤ (ruta ++ ascii "/" ++ e.1).length) →
      fileCount + (regularEntries listed).length = res2 →
      NeverReturns (Talking t bytes sent) (enviarFicheros env ruta res2 fileCount listed) := by
  induction listed with
  | nil =>
      rintro fileCount sent _ _ ⟨e, member, _⟩
      cases member
  | cons entry rest ih =>
      rintro fileCount sent stored some_text ⟨e, member, content', isFile, long⟩ count
      have storedRest : ∀ e ∈ rest, t.node (folder ++ [e.1]) = some e.2 :=
        fun e member => stored e (List.mem_cons_of_mem _ member)
      have some_textRest : ∀ e ∈ rest, ∀ content, e.2 = .file content → content ≠ [] :=
        fun e member => some_text e (List.mem_cons_of_mem _ member)
      have counted : e ∈ regularEntries (entry :: rest) := by
        rw [regularEntries, List.mem_filter]
        exact ⟨member, by simp [isFile]⟩
      have left := List.length_pos_of_mem counted
      obtain ⟨dName, _ | content⟩ := entry
      · unfold enviarFicheros
        rw [if_neg (by omega)]
        rcases List.mem_cons.mp member with rfl | later
        · cases isFile
        · exact ih storedRest some_textRest ⟨e, later, content', isFile, long⟩
            (by simpa [regularEntries] using count)
      · have more : fileCount + 1 + (regularEntries rest).length = res2 := by
          rw [← count]
          simp only [regularEntries, List.filter_cons]
          simp
          omega
        unfold enviarFicheros
        rw [if_neg (by omega)]
        by_cases short : (ruta ++ ascii "/" ++ dName).length < 1024
        · refine Gives.neverReturns (gives_sprintf short) ?_
          refine (finds_fopen
            (openRead_entry nonempty resolved (stored _ List.mem_cons_self))).neverReturns ?_
          rintro _ ⟨fp, rfl, rfl⟩
          refine Gives.neverReturns (gives_enviarFichero env fileCount dName
            (some_text _ List.mem_cons_self _ rfl)) ?_
          rcases List.mem_cons.mp member with rfl | later
          · exact absurd short (not_lt.mpr long)
          · exact ih storedRest some_textRest ⟨e, later, content', isFile, long⟩ more
        · exact NeverReturns.bind (neverReturns_sprintf (not_lt.mp short))

end Files

/-- What `sendMessage(sc, res_clients, res2 + 1)` sends. -/
def countMessage (n : Nat) : Bytes := (decimal n ++ List.replicate 256 0).take (n + 1)

section Content
variable {t : FileTree} {bytes : Bytes} {sent : List Bytes}

theorem gives_enviarCuenta {n : Nat} (inside : n ≤ 255) :
    Gives (Talking t bytes sent) (enviarCuenta n) ()
      (Talking t bytes (sent ++ [countMessage n])) := by
  rw [enviarCuenta, if_neg (by omega)]
  exact gives_responder (countMessage n)

theorem neverReturns_enviarCuenta {n : Nat} (outside : 255 < n) :
    NeverReturns (Talking t bytes sent) (enviarCuenta n) := by
  rw [enviarCuenta, if_pos (by omega)]
  exact NeverReturns.throw _

structure Folder (t : FileTree) (usernameFolder : Bytes) (entries : List (Name × Node)) : Prop where
  short : usernameFolder.length < 38
  opens : t.opendir (folderOf usernameFolder) = some entries

variable {usernameFolder : Bytes} {entries : List (Name × Node)}

theorem Folder.stored (folder : Folder t usernameFolder entries) :
    ∃ p, t.resolve (folderOf usernameFolder) = some p ∧
      ∀ e ∈ entries, t.node (p ++ [e.1]) = some e.2 := by
  obtain ⟨p, found, rfl⟩ := find_of_opendir folder.opens
  exact ⟨p, (find_node found).1, fun e member => mem_entries.mp member⟩

def contentReply (usernameFolder : Bytes) (entries : List (Name × Node)) : Reply :=
  ⟨ascii "0", some (regularEntries entries).length, some usernameFolder⟩

theorem gives_enviarContenido (env : Surroundings) (folder : Folder t usernameFolder entries)
    (inside : (regularEntries entries).length ≤ 255)
    (fits : ∀ e ∈ entries, Listable (folderOf usernameFolder) e) :
    Gives (Talking t bytes sent) (enviarContenido env (contentReply usernameFolder entries)) ()
      (Talking t bytes
        (sent ++ [countMessage (regularEntries entries).length] ++ fileMessages entries)) := by
  obtain ⟨p, resolved, stored⟩ := folder.stored
  have short := folder.short
  refine Gives.bind (gives_enviarCuenta inside) (Gives.bind (gives_sprintf ?_) ?_)
  · rw [contentReply, Option.getD_some, folderOf_length]
    omega
  · refine (finds_opendir folder.opens).gives ?_
    rintro _ ⟨dir, rfl, rfl⟩
    exact Gives.bind (gives_enviarFicheros env (folderOf_ne_nil _) resolved _ _ stored fits
      (Nat.zero_add _)) (gives_close dir.id)

theorem neverReturns_enviarContenido (env : Surroundings) (folder : Folder t usernameFolder entries)
    (some_text : ∀ e ∈ entries, ∀ content, e.2 = .file content → content ≠ [])
    (unfit : 255 < (regularEntries entries).length ∨ ∃ e ∈ entries, ∃ content,
      e.2 = .file content ∧ 1024 ≤ (folderOf usernameFolder ++ ascii "/" ++ e.1).length) :
    NeverReturns (Talking t bytes sent)
      (enviarContenido env (contentReply usernameFolder entries)) := by
  obtain ⟨p, resolved, stored⟩ := folder.stored
  have short := folder.short
  by_cases inside : (regularEntries entries).length ≤ 255
  · refine Gives.neverReturns (gives_enviarCuenta inside)
      (Gives.neverReturns (gives_sprintf ?_) ?_)
    · rw [contentReply, Option.getD_some, folderOf_length]
      omega
    · refine (finds_opendir folder.opens).neverReturns ?_
      rintro _ ⟨dir, rfl, rfl⟩
      exact NeverReturns.bind (neverReturns_enviarFicheros env (folderOf_ne_nil _) resolved _ _
        stored some_text (unfit.resolve_left (by omega)) (Nat.zero_add _))
  · exact NeverReturns.bind (neverReturns_enviarCuenta (not_le.mp inside))

end Content

/-! ## The whole handler -/

section Whole
variable {t : FileTree} {env : Surroundings} {request : Request} {fecha texto bytes : Bytes}
  {reply : Reply}

theorem gives_replied (answers : env.terminalRpc = true) (op : Operacion) :
    Gives (Talking t bytes []) (do
        terminalRpc env op.code fecha request.username
        responder (reply.res ++ [0])) ()
      (Talking t bytes [reply.res ++ [0]]) := by
  refine Gives.bind (a := ()) (Q := Talking t bytes []) ?_ (gives_responder _)
  intro c talking
  refine ⟨{ c with recorded := c.recorded ++ [(op.code, fecha, request.username)] }, ?_,
    talking.tree, talking.calm, talking.steady, talking.delivers, talking.sent⟩
  simp only [EStateM.run, terminalRpc, answers, if_true]

theorem contestar_eq (op : Operacion) (recorded : textoRpc request fecha = pure texto) :
    contestar env op request fecha reply = (do
        terminalRpc env op.code texto request.username
        responder (reply.res ++ [0])) >>= fun _ => listar env request reply := by
  rw [contestar, recorded, pure_bind, bind_assoc]

variable {s s' : Sys} {input : List ReadResult} {writes : List WriteResult} {op : Operacion}
  {campos : List Bytes} {more : Bytes}

/-- A request of plain fields arrives whole at a handler whose own calls and
writes work. -/
structure Asked (env : Surroundings) (op : Operacion) (campos : List Bytes) (fecha more : Bytes)
    (input : List ReadResult) (writes : List WriteResult) : Prop where
  made : env.clntCreate = true
  answers : env.terminalRpc = true
  count : campos.length = op.attrs
  plain : ∀ campo ∈ campos ++ [fecha], Plain campo
  steady : .failed ∉ writes
  delivers : Delivers input (wire (op.name :: campos ++ [fecha]) ++ more)

theorem Asked.run (asked : Asked env op campos fecha more input writes)
    (ran : (serve (op.request campos)).run s = .ok reply s') (calm : s'.faults = [])
    (recorded : textoRpc (op.request campos) fecha = pure texto) :
    ∃ c, Talking s'.tree more [reply.res ++ [0]] c ∧
      (cuerpo env).run (Conn.accepted s input writes) =
        (listar env (op.request campos) reply).run c := by
  obtain ⟨left, last, body⟩ := @cuerpo_arrives s input writes op _ _ _ asked.count asked.plain
    asked.delivers
  have before : Talking s'.tree more []
      { Conn.reading s left writes with sys := s', served := [op.request campos] } :=
    ⟨rfl, calm, asked.steady, last, rfl⟩
  have gives : Gives (Talking s'.tree more []) (do
      terminalRpc env op.code texto (op.request campos).username
      responder (reply.res ++ [0])) () _ := gives_replied asked.answers op
  obtain ⟨c, replied, talking⟩ := gives _ before
  refine ⟨c, talking, ?_⟩
  have served : (servir (op.request campos)).run (Conn.reading s left writes) = .ok reply
      { Conn.reading s left writes with sys := s', served := [op.request campos] } :=
    servir_of_ok ran
  rw [body env asked.made, atender, EStateM.run_bind, served]
  simp only
  rw [contestar_eq op recorded, EStateM.run_bind, replied]

theorem Asked.sends (asked : Asked env op campos fecha more input writes)
    (ran : (serve (op.request campos)).run s = .ok reply s') (calm : s'.faults = [])
    (recorded : textoRpc (op.request campos) fecha = pure texto) {left : Bytes} {sent : List Bytes}
    (listed : Gives (Talking s'.tree more [reply.res ++ [0]]) (listar env (op.request campos) reply) ()
      (Talking s'.tree left sent)) :
    ∃ c, (tratarMensaje env).run (Conn.accepted s input writes) = .ok () c ∧ c.sent = sent ∧
      c.sys.tree = s'.tree := by
  obtain ⟨c, talking, body⟩ := asked.run ran calm recorded
  obtain ⟨c', listed, after⟩ := listed c talking
  refine ⟨_, bind_ok.mpr ⟨(), c', body.trans listed, rfl⟩, after.sent, after.tree⟩

theorem Asked.stops (asked : Asked env op campos fecha more input writes)
    (ran : (serve (op.request campos)).run s = .ok reply s') (calm : s'.faults = [])
    (recorded : textoRpc (op.request campos) fecha = pure texto)
    (stops : NeverReturns (Talking s'.tree more [reply.res ++ [0]])
      (listar env (op.request campos) reply)) (c : Conn) :
    (tratarMensaje env).run (Conn.accepted s input writes) ≠ .ok () c := by
  intro returned
  obtain ⟨_, c₁, body', -⟩ := bind_ok.mp returned
  obtain ⟨c₂, talking, body⟩ := asked.run ran calm recorded
  obtain ⟨e, c₃, stopped⟩ := stops c₂ talking
  rw [body, stopped] at body'
  cases body'

/-- Nor does the handler return where the operation does not. -/
theorem Asked.stops_of_error (asked : Asked env op campos fecha more input writes) {why : Undefined}
    (ran : (serve (op.request campos)).run s = .error why s') (c : Conn) :
    (tratarMensaje env).run (Conn.accepted s input writes) ≠ .ok () c := by
  intro returned
  obtain ⟨_, c₁, body', -⟩ := bind_ok.mp returned
  obtain ⟨left, last, body⟩ := @cuerpo_arrives s input writes op _ _ _ asked.count asked.plain
    asked.delivers
  rw [body env asked.made] at body'
  obtain ⟨reply, c₂, served, -⟩ := bind_ok.mp body'
  obtain ⟨s'', ran', -⟩ := servir_ok served
  cases ran.symm.trans ran'

end Whole

end DistrApp.Server
