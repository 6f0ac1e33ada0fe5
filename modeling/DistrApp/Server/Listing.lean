import DistrApp.Library.Streams
import DistrApp.Server.Fields

/-!
# The listings of the server

LIST_USERS and LIST_CONTENT from the reply code on, as programs over a byte
stream: what is sent, and where an acknowledgement is read.  `Mirrors` compares
such a program with the handler it stands for.
-/

set_option autoImplicit false

namespace DistrApp.Server

open Text FileTree Streams Effects

/-! ## The programs -/

def sendUsers : List Bytes → Prog
  | [] => .done
  | resCliente :: rest => .send (cString resCliente ++ [0]) <|
      .line endsLine fun _recibido => sendUsers rest

def sendListUsers (env : Surroundings) (reply : Reply) (lines : List Bytes) : Prog :=
  .send (reply.res ++ [0]) <| .line endsLine fun _recibido =>
    .send (decimal (reply.res2.getD env.res2) ++ [0])
      (if reply.res = ascii "0" then sendUsers lines else .done)

def sendFiles (env : Surroundings) (ruta : Bytes) (res2 : Int) :
    Nat → List (Name × Node) → Prog
  | _, [] => .done
  | fileCount, (dName, n) :: rest =>
      if res2 ≤ fileCount then .done
      else match n with
        | .dir => sendFiles env ruta res2 fileCount rest
        | .file content =>
            if 1024 ≤ (ruta ++ ascii "/" ++ dName).length then .failed
            else match fgets 256 content with
              | some (description, _) =>
                  .send (registro dName description ++ [0])
                    (sendFiles env ruta res2 (fileCount + 1) rest)
              | none =>
                  if (0 : UInt8) ∈ env.description fileCount then
                    .send (registro dName (env.description fileCount) ++ [0])
                      (sendFiles env ruta res2 (fileCount + 1) rest)
                  else .failed

/-- LIST_CONTENT from the reply code on; without entries the folder does not open. -/
def sendListContent (env : Surroundings) (reply : Reply) (ruta : Bytes)
    (entries : Option (List (Name × Node))) : Prog :=
  let res2 := reply.res2.getD env.res2
  .send (reply.res ++ [0]) <| .line endsLine fun _recibido =>
    if 256 < res2 + 1 then .failed
    else .send ((decimal res2 ++ List.replicate 256 0).take (res2 + 1).toNat)
      (match entries with
        | none => .failed
        | some entries => sendFiles env ruta res2 0 entries)

inductive Listing
  | users
  | content

def Listing.Asked : Listing → Request → Prop
  | users, .listUsers _ => True
  | content, .listContent _ _ => True
  | _, _ => False

/-- What follows once `*_serv` has returned this reply, over this tree. -/
def Listing.program (env : Surroundings) (t : FileTree) (reply : Reply) : Listing → Prog
  | users => sendListUsers env reply
      (match t.openRead conectadosTxt with
        | some (_, text) => pieces 256 text
        | none => [])
  | content =>
      let ruta := folderOf (reply.resUsername.getD [])
      sendListContent env reply ruta (t.opendir ruta)

theorem waits_sendUsers (lines : List Bytes) : (sendUsers lines).Waits endsLine := by
  induction lines with
  | nil => exact Prog.Waits.done
  | cons line rest ih => exact Prog.Waits.send (Prog.Waits.line fun _ => ih)

theorem waits_sendFiles (env : Surroundings) (ruta : Bytes) (res2 : Int) (fileCount : Nat)
    (entries : List (Name × Node)) : (sendFiles env ruta res2 fileCount entries).Waits endsLine := by
  induction entries generalizing fileCount with
  | nil => exact Prog.Waits.done
  | cons entry rest ih =>
      obtain ⟨dName, n⟩ := entry
      unfold sendFiles
      split
      · exact Prog.Waits.done
      · cases n with
        | dir => exact ih fileCount
        | file content =>
            simp only
            split
            · exact Prog.Waits.failed
            · split
              · exact Prog.Waits.send (ih _)
              · split
                · exact Prog.Waits.send (ih _)
                · exact Prog.Waits.failed

theorem Listing.waits (env : Surroundings) (t : FileTree) (reply : Reply) (listing : Listing) :
    (listing.program env t reply).Waits endsLine := by
  cases listing with
  | users =>
      refine Prog.Waits.send (Prog.Waits.line fun _ => Prog.Waits.send ?_)
      split
      · exact waits_sendUsers _
      · exact Prog.Waits.done
  | content =>
      refine Prog.Waits.send (Prog.Waits.line fun _ => ?_)
      split
      · exact Prog.Waits.failed
      · refine Prog.Waits.send ?_
        split
        · exact Prog.Waits.failed
        · exact waits_sendFiles _ _ _ _ _

/-! ## The handler does what the program says -/

/-- The calls of a program, made by a handler; the server has no `recv`. -/
def conduct : Prog → Handler Unit
  | .done => pure ()
  | .failed => throw .returned
  | .recv _ _ => throw .returned
  | .line _ next => do
      let recibido ← leerCampo
      conduct (next recibido)
  | .send message next => do
      let _ok ← enviar message
      conduct next

/-- On both connections the same is to be read and has been sent; no `write`
and, on the first one, no `fopen` is going to fail. -/
structure Alongside (t : FileTree) (c d : Conn) : Prop where
  tree : c.sys.tree = t
  faults : c.sys.faults = []
  writes : c.writes = [] ∧ d.writes = []
  input : d.input = c.input
  sent : d.sent = c.sent

/-- The handler makes the calls of the program and goes on, or stops, where it does. -/
def Mirrors (t : FileTree) (op : Handler Unit) (p : Prog) : Prop :=
  ∀ c d, Alongside t c d → match op.run c, (conduct p).run d with
    | .ok _ c', .ok _ d' => Alongside t c' d'
    | .error _ c', .error _ d' => Alongside t c' d'
    | _, _ => False

section Mirrors
variable {t : FileTree} {α : Type}

theorem mirrors_done : Mirrors t (pure ()) .done := fun _ _ alongside => alongside

theorem mirrors_silent {op : Handler α} {next : α → Handler Unit} {p : Prog} {a : α}
    (silent : ∀ c, c.sys.tree = t → c.sys.faults = [] → ∃ s, s.tree = t ∧ s.faults = [] ∧
      op.run c = .ok a { c with sys := s })
    (later : Mirrors t (next a) p) : Mirrors t (op >>= next) p := by
  intro c d alongside
  obtain ⟨s, tree, faults, ran⟩ := silent c alongside.tree alongside.faults
  rw [EStateM.run_bind, ran]
  exact later _ d ⟨tree, faults, alongside.writes, alongside.input, alongside.sent⟩

theorem sends_enviar (message : Bytes) (c : Conn) (works : c.writes = []) :
    (enviar message).run c = .ok true { c with sent := c.sent ++ [message] } := by
  simp only [EStateM.run, enviar, works, sendMessage]

theorem mirrors_send {message : Bytes} {op : Handler α} {next : α → Handler Unit}
    {p : Prog} {a : α} (sends : ∀ c, c.writes = [] →
      op.run c = .ok a { c with sent := c.sent ++ [message] })
    (later : Mirrors t (next a) p) : Mirrors t (op >>= next) (.send message p) := by
  intro c d alongside
  rw [conduct, EStateM.run_bind, EStateM.run_bind, sends c alongside.writes.1,
    sends_enviar _ _ alongside.writes.2]
  exact later _ _ ⟨alongside.tree, alongside.faults, alongside.writes, alongside.input,
    by rw [alongside.sent]⟩

theorem mirrors_line {ends : UInt8 → Bool} {next : Bytes → Handler Unit} {p : Bytes → Prog}
    (later : ∀ campo, Mirrors t (next campo) (p campo)) :
    Mirrors t (leerCampo >>= next) (.line ends p) := by
  intro c d alongside
  have after : ∀ rest, Alongside t { c with input := rest } { d with input := rest } := fun rest =>
    ⟨alongside.tree, alongside.faults, alongside.writes, rfl, alongside.sent⟩
  rw [conduct, EStateM.run_bind, EStateM.run_bind, run_leerCampo, run_leerCampo,
    alongside.input]
  rcases readLine 1024 c.input with ⟨stored | _ | stored, rest⟩
  · by_cases fits : stored.length ≤ 256
    · simp only [if_pos fits]
      exact after rest
    · simp only [if_neg fits]
      exact after rest
  · exact later _ _ _ (after rest)
  · by_cases fits : stored.length < 256
    · simp only [if_pos fits]
      exact later _ _ _ (after rest)
    · simp only [if_neg fits]
      exact after rest

theorem sends_enviarDe (fp : Stream) (message : Bytes) (c : Conn) (works : c.writes = []) :
    (enviarDe fp message).run c = .ok () { c with sent := c.sent ++ [message] } := by
  rw [enviarDe, EStateM.run_bind, sends_enviar _ _ works]
  rfl

theorem sends_responder (message : Bytes) (c : Conn) (works : c.writes = []) :
    (responder message).run c = .ok () { c with sent := c.sent ++ [message] } := by
  rw [responder, EStateM.run_bind, sends_enviar _ _ works]
  rfl

theorem silent_fopen {path : Bytes} {next : Option Stream → Handler Unit} {p : Prog}
    {file : Path} {text : Bytes} (opened : t.openRead path = some (file, text))
    (later : ∀ fp : Stream, fp.text = text → Mirrors t (next (some fp)) p) :
    Mirrors t (onSys (fopen path .read) >>= next) p := by
  intro c d alongside
  obtain ⟨s, ran, tree, faults⟩ := fopen_read_run c.sys path
  rw [alongside.faults, alongside.tree, opened] at ran
  rw [EStateM.run_bind, run_onSys ran]
  exact later _ rfl _ d ⟨tree.trans alongside.tree, faults.trans (by rw [alongside.faults]; rfl),
    alongside.writes, alongside.input, alongside.sent⟩

theorem silent_close (id : Nat) (c : Conn) (tree : c.sys.tree = t) (faults : c.sys.faults = []) :
    ∃ s, s.tree = t ∧ s.faults = [] ∧
      (onSys (closeHandle id)).run c = .ok () { c with sys := s } :=
  ⟨{ c.sys with handles := c.sys.handles ++ [.closed id] }, tree, faults, rfl⟩

theorem mirrors_listarLinea {fp : Stream} {i : Nat} {line : Bytes} {rest : List Bytes}
    {next : Unit → Handler Unit} {p : Prog} (here : (pieces 256 fp.text).drop i = line :: rest)
    (later : Mirrors t (next ()) p) : Mirrors t (listarLinea fp i >>= next)
      (.send (cString line ++ [0]) (.line endsLine fun _recibido => p)) := by
  have enough : i ≤ (pieces 256 fp.text).length := by
    by_contra beyond
    rw [List.drop_eq_nil_of_le (by omega)] at here
    cases here
  obtain ⟨text, skipped, left⟩ := saltarLineas_pieces enough
  obtain ⟨more, read⟩ := fgets_of_pieces (left.trans here)
  simp only [listarLinea, skipped, read, enviarLinea, bind_assoc]
  exact mirrors_send (sends_enviarDe fp _) <| mirrors_line fun _ =>
    mirrors_silent (silent_close fp.id) later

theorem mirrors_listarLineas {file : Path} {text : Bytes}
    (opened : t.openRead conectadosTxt = some (file, text)) (n : Nat) :
    ∀ {i : Nat}, i + n = (pieces 256 text).length →
      Mirrors t (listarLineas i n) (sendUsers ((pieces 256 text).drop i)) := by
  induction n with
  | zero =>
      intro i whole
      rw [List.drop_eq_nil_of_le (by omega)]
      exact mirrors_done
  | succ n ih =>
      intro i whole
      have inside : i < (pieces 256 text).length := by omega
      rw [List.drop_eq_getElem_cons inside]
      refine silent_fopen opened ?_
      rintro fp rfl
      exact mirrors_listarLinea (List.drop_eq_getElem_cons inside) (ih (by omega))

theorem mirrors_listarUsuarios {env : Surroundings} {reply : Reply} {lines : List Bytes}
    (each : reply.res = ascii "0" →
      Mirrors t (listarLineas 0 (reply.res2.getD env.res2).toNat) (sendUsers lines)) :
    Mirrors t (listarUsuarios env reply) (.line endsLine fun _recibido =>
      .send (decimal (reply.res2.getD env.res2) ++ [0])
        (if reply.res = ascii "0" then sendUsers lines else .done)) := by
  refine mirrors_line fun _ => mirrors_send (sends_enviar _) ?_
  split
  · rename_i zero
    exact each zero
  · exact mirrors_done

theorem mirrors_enviarFichero {fp : Stream} {dName : Name} {description : Bytes} {env : Surroundings}
    {fileCount : Nat} {next : Unit → Handler Unit} {p : Prog}
    (stored : leerDescripcion env fileCount fp.text = pure description)
    (later : Mirrors t (next ()) p) : Mirrors t (enviarFichero env fileCount dName fp >>= next)
      (.send (registro dName description ++ [0]) p) := by
  simp only [enviarFichero, stored, pure_bind, bind_assoc]
  exact mirrors_send (sends_enviarDe fp _) (mirrors_silent (silent_close fp.id) later)

theorem mirrors_stop {op : Handler α} {next : α → Handler Unit} {e : Stop}
    (stops : ∀ c, op.run c = .error e c) : Mirrors t (op >>= next) .failed := by
  intro c d alongside
  rw [EStateM.run_bind, stops]
  exact alongside

theorem mirrors_enviarFicheros (env : Surroundings) {ruta : Bytes} {folder : Path}
    (nonempty : ruta ≠ []) (resolved : t.resolve ruta = some folder) (res2 : Int)
    {next : Unit → Handler Unit} (last : Mirrors t (next ()) .done) (listed : List (Name × Node)) :
    ∀ {fileCount : Nat}, (∀ e ∈ listed, t.node (folder ++ [e.1]) = some e.2) →
      Mirrors t (enviarFicheros env ruta res2 fileCount listed >>= next)
        (sendFiles env ruta res2 fileCount listed) := by
  induction listed with
  | nil => exact fun _ => last
  | cons entry rest ih =>
      intro fileCount stored
      have storedRest : ∀ e ∈ rest, t.node (folder ++ [e.1]) = some e.2 :=
        fun e member => stored e (List.mem_cons_of_mem _ member)
      obtain ⟨dName, n⟩ := entry
      unfold enviarFicheros sendFiles
      split
      · exact last
      · cases n with
        | dir => exact ih storedRest
        | file content =>
            have opened := openRead_entry nonempty resolved
              (stored (dName, .file content) List.mem_cons_self)
            simp only [bind_assoc]
            by_cases long : 1024 ≤ (ruta ++ ascii "/" ++ dName).length
            · rw [if_pos long]
              exact mirrors_stop (e := .undefined .overflow) fun c => by
                rw [sprintf, if_neg (not_lt.mpr long)]
                rfl
            · rw [if_neg long]
              refine mirrors_silent (a := ruta ++ ascii "/" ++ dName) (fun c tree faults => ?_) ?_
              · refine ⟨c.sys, tree, faults, ?_⟩
                rw [sprintf, if_pos (not_le.mp long)]
                rfl
              · refine silent_fopen opened ?_
                rintro fp rfl
                simp only [bind_assoc]
                cases read : fgets 256 fp.text with
                | some line =>
                    refine mirrors_enviarFichero ?_ (ih storedRest)
                    rw [leerDescripcion, read]
                | none =>
                    simp only
                    split
                    · rename_i ends
                      refine mirrors_enviarFichero ?_ (ih storedRest)
                      rw [leerDescripcion, read, if_pos ends]
                    · rename_i endless
                      rw [enviarFichero, leerDescripcion, read]
                      simp only [if_neg endless, bind_assoc]
                      exact mirrors_stop fun _ => rfl

theorem mirrors_enviarContenido {env : Surroundings} {reply : Reply}
    (short : (folderOf (reply.resUsername.getD [])).length < 256) :
    Mirrors t (enviarContenido env reply)
      (if 256 < reply.res2.getD env.res2 + 1 then .failed
        else .send ((decimal (reply.res2.getD env.res2) ++ List.replicate 256 0).take
            (reply.res2.getD env.res2 + 1).toNat)
          (match t.opendir (folderOf (reply.resUsername.getD [])) with
            | none => .failed
            | some entries => sendFiles env (folderOf (reply.resUsername.getD []))
                (reply.res2.getD env.res2) 0 entries)) := by
  simp only [enviarContenido, enviarCuenta]
  split
  · exact mirrors_stop fun _ => rfl
  · refine mirrors_send (sends_responder _) ?_
    refine mirrors_silent (a := folderOf (reply.resUsername.getD [])) (fun c tree faults => ?_) ?_
    · refine ⟨c.sys, tree, faults, ?_⟩
      rw [sprintf, if_pos short]
      rfl
    · intro c d alongside
      obtain ⟨s, ran, tree, faults⟩ := opendir_faulty_run c.sys (folderOf (reply.resUsername.getD []))
      rw [alongside.faults, alongside.tree] at ran
      have after : Alongside t { c with sys := s } d :=
        ⟨tree.trans alongside.tree, faults.trans (by rw [alongside.faults]; rfl), alongside.writes,
          alongside.input, alongside.sent⟩
      rw [EStateM.run_bind, run_onSys ran]
      cases opened : t.opendir (folderOf (reply.resUsername.getD [])) with
      | none => exact after
      | some entries =>
          obtain ⟨folder, found, shape⟩ := find_of_opendir opened
          have last : Mirrors t (onSys (closedir ⟨c.sys.handles.length, entries⟩)) .done := by
            intro c d alongside
            exact ⟨alongside.tree, alongside.faults, alongside.writes, alongside.input, alongside.sent⟩
          exact mirrors_enviarFicheros env (folderOf_ne_nil _) (find_node found).1 _ last entries
            (fun e member => mem_entries.mp (shape ▸ member)) _ d after

/-- From the record on, a case of a listing makes the calls of its program. -/
theorem mirrors_contestar {listing : Listing} {env : Surroundings} {request : Request} {reply : Reply}
    (asked : listing.Asked request) (served : Served t request reply) (answers : env.terminalRpc = true)
    (op : Operacion) (fecha : Bytes) :
    Mirrors t (contestar env op request fecha reply) (listing.program env t reply) := by
  obtain ⟨s, s', rfl, ran⟩ := served
  have recorded : ∀ {p : Prog}, textoRpc request fecha = pure fecha →
      Mirrors s.tree (responder (reply.res ++ [0]) >>= fun _ => listar env request reply) p →
      Mirrors s.tree (contestar env op request fecha reply) p := by
    intro p plain later c d alongside
    have here : (terminalRpc env op.code fecha request.username).run c =
        .ok () { c with recorded := c.recorded ++ [(op.code, fecha, request.username)] } := by
      simp only [EStateM.run, terminalRpc, answers, if_true]
    rw [contestar, plain, pure_bind, EStateM.run_bind, here]
    exact later _ d ⟨alongside.tree, alongside.faults, alongside.writes, alongside.input, alongside.sent⟩
  cases listing with
  | users =>
      cases request with
      | listUsers username =>
          obtain ⟨listed, s₁, first, finished⟩ := bind_ok.mp ran
          obtain ⟨rfl, -⟩ := pure_ok.mp finished
          refine recorded rfl (mirrors_send (sends_responder _) (mirrors_listarUsuarios fun zero => ?_))
          have answered := (listUsersServ_reply (p := ⟨s.faults, [], []⟩) rfl first).2
          rw [Pending.table] at answered
          split at answered
          · exact absurd zero answered.1
          · rename_i text found
            split at found
            · cases found
            · obtain ⟨⟨file, opened⟩, read, rfl⟩ := Option.map_eq_some_iff.mp found
              rw [answered.1, read]
              exact mirrors_listarLineas read _ (Nat.zero_add _)
      | _ => exact asked.elim
  | content =>
      cases request with
      | listContent username usernameFolder =>
          obtain ⟨listed, s₁, first, finished⟩ := bind_ok.mp ran
          obtain ⟨rfl, -⟩ := pure_ok.mp finished
          refine recorded rfl (mirrors_send (sends_responder _) (mirrors_line fun _ =>
            mirrors_enviarContenido ?_))
          have short := listContentServ_returns first
          have answered := (listContentServ_reply first).2.2
          split at answered
          · rw [answered]
            decide
          · rw [answered, Option.getD_some, folderOf_length]
            omega
      | _ => exact asked.elim

end Mirrors

end DistrApp.Server
