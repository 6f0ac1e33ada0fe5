import DistrApp.Server.Handler
import DistrApp.Server.AcceptLoop

/-!
# When a handler lets the next connection in

`main` waits until the handler has cleared the flag and released the mutex.
`Steady` spells out, for the calls that lie on the way of a request, that none
of those with an early return after it fails; a handler that ends has let
`main` go on if and only if that is so.
-/

set_option autoImplicit false

namespace DistrApp.Server

open Text FileTree Effects

/-- What the calls to come will find: which calls on the file tree fail by
themselves, what the reads deliver and what the writes take. -/
structure Pending where
  faults : List Bool
  input : List ReadResult
  writes : List WriteResult

def Conn.pending (c : Conn) (faults : List Bool) : Pending := ⟨faults, c.input, c.writes⟩

/-! ## The calls on the way -/

namespace Pending

def line (p : Pending) : Option (Bytes × Pending) :=
  match readLine 1024 p.input with
  | (.failed _, _) => none
  | (.endOfFile, rest) => some ([], { p with input := rest })
  | (.text stored, rest) => some (stored, { p with input := rest })

def lines : Nat → Pending → Option (List Bytes × Pending)
  | 0, p => some ([], p)
  | n + 1, p => do
      let (campo, p) ← p.line
      let (campos, p) ← p.lines n
      return (campo :: campos, p)

def send (p : Pending) (length : Nat) : Bool × Pending :=
  let (ok, _, rest) := sendMessage p.writes (List.replicate length 0)
  (ok, { p with writes := rest })

def sent (p : Pending) (length : Nat) : Option Pending :=
  if (p.send length).1 then some (p.send length).2 else none

def fault (p : Pending) : Bool := p.faults.headD false

def afterFault (p : Pending) : Pending := { p with faults := p.faults.tail }

def acknowledged (p : Pending) (length : Nat) : Option Pending := do
  let p ← p.sent length
  let (_, p) ← p.line
  return p

/-- The lines of LIST_USERS: for each one the table is opened again. -/
def users : List Bytes → Pending → Option Pending
  | [], p => some p
  | line :: rest, p =>
      if p.fault then none
      else do
        let p ← p.afterFault.acknowledged ((cString line).length + 1)
        users rest p

def description (env : Surroundings) (fileCount : Nat) (content : Bytes) : Bytes :=
  match fgets 256 content with
  | some (line, _) => line
  | none => env.description fileCount

def files (env : Surroundings) : Nat → List (Name × Node) → Pending → Option Pending
  | _, [], p => some p
  | fileCount, (_, .dir) :: rest, p => files env fileCount rest p
  | fileCount, (dName, .file content) :: rest, p =>
      if p.fault then files env fileCount rest p.afterFault
      else do
        let p ← p.afterFault.sent
          ((registro dName (description env fileCount content)).length + 1)
        files env (fileCount + 1) rest p

/-- The table that LIST_USERS counts, if it answers `"0"`. -/
def table (t : FileTree) (username : Bytes) (p : Pending) : Option Bytes :=
  if username = [] ∨ t.access (folderOf username) = false ∨ p.fault then none
  else (t.openRead conectadosTxt).map Prod.snd

/-- LIST_USERS: the reply, an acknowledgement, the count, whose failure is not
noticed, and the lines. -/
def listUsers (t : FileTree) (username : Bytes) (p : Pending) : Option Pending := do
  let text := table t username p
  let p ← p.acknowledged 2
  match text with
  | none => some p
  | some text =>
      let count := (decimal (pieces 256 text).length).length
      users (pieces 256 text) (p.afterFault.send (count + 1)).2

/-- LIST_CONTENT: the reply, an acknowledgement, the count, the folder and the
files.  A folder that does not open gets the reply for unknown users, and then
`usuarios` itself is opened. -/
def listContent (env : Surroundings) (t : FileTree) (folder : Bytes) (p : Pending) :
    Option Pending := do
  let listed := if p.fault then none else t.opendir (folderOf folder)
  match listed with
  | none =>
      let p ← p.afterFault.acknowledged 23
      let p ← p.sent 0
      if p.fault ∨ t.opendir (folderOf []) = none then none else some p
  | some entries =>
      let p ← p.afterFault.acknowledged 2
      let p ← p.sent ((regularEntries entries).length + 1)
      if p.fault then none else files env 0 entries p.afterFault

def reply (env : Surroundings) (t : FileTree) (request : Request) (p : Pending) : Option Pending :=
  match request with
  | .listUsers username => listUsers t username p
  | .listContent _ usernameFolder => listContent env t usernameFolder p
  | _ => p.sent 2

def handler (env : Surroundings) (t : FileTree) (p : Pending) : Option Pending := do
  let (operacion, p) ← p.line
  if env.clntCreate then
    match operacionOf operacion with
    | none => some p
    | some op => do
        let (campos, p) ← p.lines op.attrs
        let (_, p) ← p.line
        if env.terminalRpc then reply env t (op.request campos) p else none
  else none

end Pending

/-- None of the calls on the way of this connection fails. -/
def Steady (env : Surroundings) (s : Sys) (input : List ReadResult) (writes : List WriteResult) :
    Prop := (Pending.handler env s.tree ⟨s.faults, input, writes⟩).isSome = true

/-- `main` can take the mutex and find the flag cleared. -/
def Released (c : Conn) : Prop := c.mutexMensaje = false ∧ c.mensajeNoCopiado = false

/-! ## The handler follows them -/

section Following
variable {c : Conn} {γ δ : Type} {R : γ → Conn → δ → Prop}

theorem sendMessage_length (writes : List WriteResult) :
    ∀ {left right : Bytes}, left.length = right.length →
      (sendMessage writes left).1 = (sendMessage writes right).1 ∧
        (sendMessage writes left).2.2 = (sendMessage writes right).2.2 := by
  induction writes with
  | nil => intro left right _; exact ⟨rfl, rfl⟩
  | cons result rest ih =>
      intro left right same
      cases result with
      | failed => exact ⟨rfl, rfl⟩
      | wrote count =>
          simp only [sendMessage, same]
          split
          · exact ⟨rfl, rfl⟩
          · exact ih (by rw [List.length_drop, List.length_drop, same])

theorem run_enviar (c : Conn) (faults : List Bool) (message : Bytes) :
    ∃ c', (enviar message).run c = .ok ((c.pending faults).send message.length).1 c' ∧
      c'.sys = c.sys ∧ ((c.pending faults).send message.length).2 = c'.pending faults := by
  obtain ⟨ok, rest⟩ := @sendMessage_length c.writes message (List.replicate message.length 0)
    (by rw [List.length_replicate])
  refine ⟨{ c with
    writes := (sendMessage c.writes message).2.2,
    sent := c.sent ++ [(sendMessage c.writes message).2.1] }, ?_, rfl, ?_⟩
  · rw [show ((c.pending faults).send message.length).1 = _ from ok.symm]
    rfl
  · show Pending.mk faults c.input _ = Pending.mk faults c.input _
    rw [rest]
    rfl

/-- The handler goes on in `c`, with the tree and the faults of `s`, and the script with `p`. -/
structure Continues (s : Sys) (faults : List Bool) (c : Conn) (p : Pending) : Prop where
  tree : c.sys.tree = s.tree
  left : c.sys.faults = s.faults
  pending : p = c.pending faults

theorem follows_responder (faults : List Bool) (message : Bytes) :
    Follows .returned (responder message) c ((c.pending faults).sent message.length)
      fun _ c' p => Continues c.sys faults c' p := by
  obtain ⟨c', ran, sys, pending⟩ := run_enviar c faults message
  refine Follows.after ran ?_
  unfold Pending.sent orUnlock
  split
  · exact Follows.pure ⟨by rw [sys], by rw [sys], pending⟩
  · exact Follows.after rfl Follows.stops

theorem follows_enviarDe (faults : List Bool) (fp : Stream) (message : Bytes) :
    Follows .returned (enviarDe fp message) c ((c.pending faults).sent message.length)
      fun _ c' p => Continues c.sys faults c' p := by
  obtain ⟨c', ran, sys, pending⟩ := run_enviar c faults message
  refine Follows.after ran ?_
  unfold Pending.sent orClose
  split
  · exact Follows.pure ⟨by rw [sys], by rw [sys], pending⟩
  · exact Follows.after rfl Follows.stops

theorem follows_leerLinea {test : Bool → Handler Unit} {held : Bool → Bool}
    (returning : Returning test held) (faults : List Bool) :
    Follows .returned (leerLinea test) c (c.pending faults).line
      fun linea c' b => linea = b.1 ∧ Continues c.sys faults c' b.2 := by
  rw [Follows, run_leerLinea returning, Pending.line, show (c.pending faults).input = c.input from rfl]
  rcases readLine 1024 c.input with ⟨stored | _ | stored, rest⟩
  · refine ⟨fun campo c' ran => ?_, fun _ _ => rfl⟩
    simp only at ran
    split at ran <;> cases ran
  · refine ⟨fun campo c' ran => ?_, fun c' ran => by cases ran⟩
    cases ran
    exact ⟨_, rfl, rfl, rfl, rfl, rfl⟩
  · refine ⟨fun campo c' ran => ?_, fun c' ran => ?_⟩
    · simp only at ran
      split at ran
      · cases ran
        exact ⟨_, rfl, rfl, rfl, rfl, rfl⟩
      · cases ran
    · simp only at ran
      split at ran <;> cases ran

theorem follows_leerCampo (faults : List Bool) :
    Follows .returned leerCampo c (c.pending faults).line
      fun campo c' b => campo = b.1 ∧ Continues c.sys faults c' b.2 :=
  follows_leerLinea returning_orReturn faults

theorem Continues.trans {s : Sys} {faults faults' : List Bool} {c c' : Conn} {p p' : Pending}
    (first : Continues s faults c p) (second : Continues c.sys faults' c' p') :
    Continues s faults' c' p' :=
  ⟨second.tree.trans first.tree, second.left.trans first.left, second.pending⟩

theorem follows_leerCampos (faults : List Bool) (n : Nat) :
    Follows .returned (leerCampos n) c ((c.pending faults).lines n)
      fun campos c' b => campos = b.1 ∧ Continues c.sys faults c' b.2 := by
  induction n generalizing c with
  | zero => exact Follows.pure ⟨rfl, rfl, rfl, rfl⟩
  | succ n ih =>
      refine Follows.bind (follows_leerCampo faults) ?_
      rintro campo c₁ ⟨_, p₁⟩ ⟨rfl, on₁⟩
      obtain rfl := on₁.pending
      refine Follows.bind ih ?_
      rintro campos c₂ ⟨_, p₂⟩ ⟨rfl, on₂⟩
      exact Follows.pure ⟨rfl, on₁.trans on₂⟩

theorem fopen_read_run (s : Sys) (path : Bytes) :
    ∃ s', (fopen path .read).run s = .ok
        (if s.faults.headD false then none else (s.tree.openRead path).map fun file =>
          ⟨s.handles.length, file.1, file.2⟩) s' ∧
      s'.tree = s.tree ∧ s'.faults = s.faults.tail := by
  rw [fopen_run]
  cases s.faults.headD false with
  | true => exact ⟨s.afterFault, rfl, rfl, rfl⟩
  | false =>
      simp only [Bool.false_eq_true, if_false, openFile]
      cases s.tree.openRead path with
      | none => exact ⟨s.afterFault, rfl, rfl, rfl⟩
      | some file => exact ⟨_, rfl, rfl, rfl⟩

theorem opendir_faulty_run (s : Sys) (path : Bytes) :
    ∃ s', (opendir path).run s = .ok
        (if s.faults.headD false then none else (s.tree.opendir path).map fun entries =>
          ⟨s.handles.length, entries⟩) s' ∧
      s'.tree = s.tree ∧ s'.faults = s.faults.tail := by
  rw [opendir_run]
  cases s.faults.headD false with
  | true => exact ⟨s.afterFault, rfl, rfl, rfl⟩
  | false =>
      simp only [Bool.false_eq_true, if_false]
      cases s.tree.opendir path with
      | none => exact ⟨s.afterFault, rfl, rfl, rfl⟩
      | some entries => exact ⟨_, rfl, rfl, rfl⟩

/-! ### LIST_USERS -/

theorem saltarLineas_pieces {i : Nat} {text : Bytes} (enough : i ≤ (pieces 256 text).length) :
    ∃ rest, saltarLineas i text = some rest ∧ pieces 256 rest = (pieces 256 text).drop i := by
  induction i generalizing text with
  | zero => exact ⟨text, rfl, rfl⟩
  | succ i ih =>
      have more : text ≠ [] := by
        rintro rfl
        simp at enough
      have cut := pieces_cons 256 (by decide) more
      rw [cut, List.length_cons] at enough
      obtain ⟨rest, skipped, left⟩ := ih (Nat.le_of_succ_le_succ enough)
      refine ⟨rest, ?_, by rw [left, cut, List.drop_succ_cons]⟩
      simp only [saltarLineas, fgets, if_neg more]
      exact skipped

theorem fgets_of_pieces {text line : Bytes} {rest : List Bytes}
    (cut : pieces 256 text = line :: rest) : ∃ later, fgets 256 text = some (line, later) := by
  have more : text ≠ [] := by
    rintro rfl
    simp at cut
  rw [pieces_cons 256 (by decide) more] at cut
  refine ⟨(cutPiece 255 text).2, ?_⟩
  rw [fgets, if_neg more, ← (List.cons.inj cut).1]

theorem follows_acknowledged (faults : List Bool) (fp : Stream) (message : Bytes) :
    Follows .returned (do
        enviarDe fp message
        let _recibido ← leerCampo
        onSys (closeHandle fp.id)) c ((c.pending faults).acknowledged message.length)
      fun _ c' p => Continues c.sys faults c' p := by
  refine Follows.bind (follows_enviarDe faults fp _) fun _ c₁ p₁ on₁ => ?_
  obtain rfl := on₁.pending
  refine Follows.bind (follows_leerCampo faults) ?_
  rintro _ c₂ ⟨_, p₂⟩ ⟨_, on₂⟩
  exact Follows.pure ⟨(on₁.trans on₂).tree, (on₁.trans on₂).left, on₂.pending⟩

theorem follows_listarLinea {fp : Stream} {i : Nat} {text line later : Bytes} (faults : List Bool)
    (skipped : saltarLineas i fp.text = some text) (read : fgets 256 text = some (line, later)) :
    Follows .returned (listarLinea fp i) c
      ((c.pending faults).acknowledged ((cString line).length + 1))
      fun _ c' p => Continues c.sys faults c' p := by
  rw [listarLinea, skipped, show (cString line).length + 1 = (cString line ++ [0]).length by simp]
  simp only [read, enviarLinea]
  exact follows_acknowledged faults fp _

theorem follows_listarLineas {text : Bytes} {file : Path} {t : FileTree}
    (opened : t.openRead conectadosTxt = some (file, text)) (n : Nat) :
    ∀ {i : Nat} {c : Conn}, c.sys.tree = t → i + n = (pieces 256 text).length →
      Follows .returned (listarLineas i n) c
        (Pending.users ((pieces 256 text).drop i) (c.pending c.sys.faults)) fun _ _ _ => True := by
  induction n with
  | zero =>
      intro i c _ whole
      rw [List.drop_of_length_le (by omega)]
      exact Follows.pure trivial
  | succ n ih =>
      intro i c here whole
      obtain ⟨rest, skipped, left⟩ := @saltarLineas_pieces i text (by omega)
      obtain ⟨line, lines, shape⟩ := List.exists_cons_of_length_pos
        (show 0 < ((pieces 256 text).drop i).length by rw [List.length_drop]; omega)
      rw [shape] at left
      obtain ⟨later, read⟩ := fgets_of_pieces left
      have next : (pieces 256 text).drop (i + 1) = lines := by
        rw [← List.drop_drop, shape, List.drop_one, List.tail_cons]
      obtain ⟨s₁, ran, tree₁, faults₁⟩ := fopen_read_run c.sys conectadosTxt
      rw [shape]
      refine Follows.after (run_onSys ran) ?_
      rw [here, opened]
      unfold Pending.users
      rw [show (c.pending c.sys.faults).fault = c.sys.faults.headD false from rfl]
      cases c.sys.faults.headD false with
      | true => exact Follows.stops
      | false =>
          simp only [Bool.false_eq_true, if_false, Option.map_some]
          refine Follows.bind (@follows_listarLinea { c with sys := s₁ } _ _ _ _ _
            c.sys.faults.tail skipped read) fun _ c₂ p₂ on₂ => ?_
          obtain rfl := on₂.pending
          rw [← next, ← show c₂.sys.faults = c.sys.faults.tail from on₂.left.trans faults₁]
          exact ih (on₂.tree.trans (tree₁.trans here)) (by omega)

theorem listUsersServ_reply {s s' : Sys} {username : Bytes} {reply : Bytes × Option Int}
    {p : Pending} (same : p.faults = s.faults)
    (ran : (listUsersServ username).run s = .ok reply s') :
    s'.tree = s.tree ∧ match Pending.table s.tree username p with
      | none => reply.1 ≠ ascii "0" ∧ reply.1.length = 1
      | some text => reply = (ascii "0", some ((pieces 256 text).length : Int)) ∧
          s'.faults = s.faults.tail := by
  unfold listUsersServ at ran
  unfold Pending.table
  split at ran
  · rename_i empty
    obtain ⟨rfl, rfl⟩ := pure_ok.mp ran
    simp only [empty, true_or, if_true]
    exact ⟨trivial, by decide⟩
  · rename_i named
    replace ran := access_then (sprintf_then ran)
    rw [Pending.fault, same]
    split at ran
    · rename_i absent
      obtain ⟨rfl, rfl⟩ := pure_ok.mp ran
      rw [Bool.not_eq_true'] at absent
      simp only [absent, true_or, or_true, if_true]
      exact ⟨trivial, by decide⟩
    · rename_i present
      rw [Bool.not_eq_true', Bool.not_eq_false] at present
      obtain ⟨s₁, opened, tree₁, faults₁⟩ := fopen_read_run s conectadosTxt
      rw [EStateM.run_bind, opened] at ran
      simp only [named, present, Bool.true_eq_false, false_or]
      cases fault : s.faults.headD false with
      | true =>
          rw [fault] at ran
          obtain ⟨rfl, rfl⟩ := pure_ok.mp ran
          simp only [if_true]
          exact ⟨tree₁, by decide⟩
      | false =>
          rw [fault] at ran
          simp only [Bool.false_eq_true, if_false] at ran ⊢
          cases read : s.tree.openRead conectadosTxt with
          | none =>
              rw [read] at ran
              obtain ⟨rfl, rfl⟩ := pure_ok.mp ran
              exact ⟨tree₁, show ascii "2" ≠ ascii "0" by decide, rfl⟩
          | some file =>
              rw [read] at ran
              simp only [Option.map_some, Option.isNone_some, Bool.false_eq_true, if_false,
                run_unread_some, run_fclose_some] at ran
              obtain ⟨rfl, rfl⟩ := pure_ok.mp ran
              exact ⟨tree₁, rfl, faults₁⟩

theorem follows_listUsers (env : Surroundings) {username : Bytes} {s : Sys} {c : Conn}
    {reply : Bytes × Option Int} {p : Pending} (input : p.input = c.input)
    (writes : p.writes = c.writes) (faults : p.faults = s.faults)
    (ran : (listUsersServ username).run s = .ok reply c.sys) :
    Follows .returned (do
        responder (reply.1 ++ [0])
        listarUsuarios env ⟨reply.1, reply.2, none⟩) c (Pending.listUsers s.tree username p)
      fun _ _ _ => True := by
  obtain ⟨tree, answered⟩ := listUsersServ_reply faults ran
  have start : p = c.pending s.faults := by
    rw [Conn.pending, ← input, ← writes, ← faults]
  have size : (reply.1 ++ [(0 : UInt8)]).length = 2 := by
    cases text : Pending.table s.tree username p with
    | none =>
        rw [text] at answered
        simp [answered.2]
    | some content =>
        rw [text] at answered
        rw [answered.1]
        rfl
  rw [Pending.listUsers]
  simp only [Pending.acknowledged, bind_assoc, ← size]
  subst start
  refine Follows.bind (follows_responder s.faults _) fun _ c₁ p₁ on₁ => ?_
  obtain rfl := on₁.pending
  refine Follows.bind (follows_leerCampo s.faults) ?_
  rintro _ c₂ ⟨_, p₂⟩ ⟨_, on₂⟩
  obtain ⟨tree₂, left₂, rfl⟩ := on₁.trans on₂
  simp only [pure_bind]
  obtain ⟨c₃, sent, sys₃, pending₃⟩ := run_enviar c₂ s.faults.tail
    (decimal ((reply.2.getD env.res2)) ++ [0])
  refine Follows.after sent ?_
  cases text : Pending.table s.tree username (c.pending s.faults) with
  | none =>
      rw [text] at answered
      simp only [answered.1, if_false]
      exact Follows.pure trivial
  | some content =>
      rw [text] at answered
      obtain ⟨rfl, left⟩ := answered
      have opened : ∃ file, s.tree.openRead conectadosTxt = some (file, content) := by
        rw [Pending.table] at text
        split at text
        · cases text
        · obtain ⟨file, opened, rfl⟩ := Option.map_eq_some_iff.mp text
          exact ⟨file.1, opened⟩
      obtain ⟨file, opened⟩ := opened
      have count : ((decimal ((some ((pieces 256 content).length : Int)).getD env.res2)) ++
          [(0 : UInt8)]).length = (decimal (pieces 256 content).length).length + 1 := by simp
      simp only [if_true, Option.getD_some, Int.toNat_natCast]
      rw [count] at pending₃
      have faults₃ : c₃.sys.faults = s.faults.tail := by
        rw [sys₃, left₂, left]
      rw [show (c₂.pending s.faults).afterFault = c₂.pending s.faults.tail from rfl, pending₃,
        ← faults₃]
      have following := @follows_listarLineas content file s.tree opened
        (pieces 256 content).length 0 c₃ (by rw [sys₃, tree₂, tree]) (by simp)
      rw [List.drop_zero] at following
      exact following

/-! ### LIST_CONTENT -/

theorem files_of_dirs (env : Surroundings) (p : Pending) {listed : List (Name × Node)}
    (dirs : regularEntries listed = []) (fileCount : Nat) :
    Pending.files env fileCount listed p = some p := by
  induction listed with
  | nil => rfl
  | cons entry rest ih =>
      obtain ⟨dName, n⟩ := entry
      cases n with
      | dir => exact ih (by simpa [regularEntries] using dirs)
      | file content => simp [regularEntries] at dirs

theorem follows_enviarFichero (env : Surroundings) (faults : List Bool) (fileCount : Nat)
    (dName : Name) (fp : Stream) :
    Follows .returned (enviarFichero env fileCount dName fp) c
      ((c.pending faults).sent
        ((registro dName (Pending.description env fileCount fp.text)).length + 1))
      fun _ c' p => Continues c.sys faults c' p := by
  unfold enviarFichero leerDescripcion Pending.description
  refine Follows.skip (fun c' ran => ?_) fun description c' ran => ?_
  · split at ran
    · cases ran
    · split at ran <;> cases ran
  · have read : c' = c ∧ description = match fgets 256 fp.text with
        | some (line, _) => line
        | none => env.description fileCount := by
      cases line : fgets 256 fp.text with
      | some cut =>
          rw [line] at ran
          exact (pure_ok.mp ran).symm
      | none =>
          rw [line] at ran
          simp only at ran
          split at ran
          · exact (pure_ok.mp ran).symm
          · cases ran
    obtain ⟨rfl, rfl⟩ := read
    rw [← bind_pure ((Conn.pending _ _).sent _), show ∀ record : Bytes,
      record.length + 1 = (record ++ [0]).length by simp]
    refine Follows.bind (follows_enviarDe faults fp _) fun _ c₁ p₁ on₁ => ?_
    exact Follows.pure ⟨on₁.tree, on₁.left, on₁.pending⟩

theorem openRead_entry {t : FileTree} {ruta : Bytes} {folder : Path} (nonempty : ruta ≠ [])
    (resolved : t.resolve ruta = some folder) {dName : Name} {content : Bytes}
    (stored : t.node (folder ++ [dName]) = some (.file content)) :
    t.openRead (ruta ++ ascii "/" ++ dName) = some (folder ++ [dName], content) := by
  have found := find_child nonempty resolved stored
  rw [show [slash] = ascii "/" by decide] at found
  rw [FileTree.openRead, found]

theorem follows_enviarFicheros (env : Surroundings) {ruta : Bytes} {folder : Path} {t : FileTree}
    (nonempty : ruta ≠ []) (resolved : t.resolve ruta = some folder) {res2 : Int}
    (listed : List (Name × Node)) :
    ∀ {fileCount : Nat} {c : Conn}, c.sys.tree = t →
      (∀ e ∈ listed, t.node (folder ++ [e.1]) = some e.2) →
      (fileCount : Int) + (regularEntries listed).length ≤ res2 →
      Follows .returned (enviarFicheros env ruta res2 fileCount listed) c
        (Pending.files env fileCount listed (c.pending c.sys.faults)) fun _ _ _ => True := by
  induction listed with
  | nil => intro fileCount c _ _ _; exact Follows.pure trivial
  | cons entry rest ih =>
      intro fileCount c here stored counted
      have storedRest : ∀ e ∈ rest, t.node (folder ++ [e.1]) = some e.2 :=
        fun e member => stored e (List.mem_cons_of_mem _ member)
      unfold enviarFicheros
      by_cases done : res2 ≤ fileCount
      · rw [if_pos done, files_of_dirs env _ (List.eq_nil_of_length_eq_zero (by omega))]
        exact Follows.pure trivial
      · rw [if_neg done]
        obtain ⟨dName, n⟩ := entry
        cases n with
        | dir => exact ih here storedRest (by simpa [regularEntries] using counted)
        | file content =>
            have counted' : (fileCount : Int) + 1 + (regularEntries rest).length ≤ res2 := by
              simp only [regularEntries, List.filter_cons, ne_eq, reduceCtorEq, not_false_eq_true,
                decide_true, if_true, List.length_cons] at counted ⊢
              omega
            have opened := openRead_entry nonempty (here ▸ resolved)
              (here ▸ stored (dName, .file content) List.mem_cons_self)
            refine Follows.skip (fun _ => onSys_ne_returned) fun filePath c₀ ran => ?_
            obtain ⟨s₀, written, rfl⟩ := onSys_ok ran
            obtain ⟨rfl, rfl⟩ := sprintf_ok written
            obtain ⟨s₁, read, tree₁, faults₁⟩ := fopen_read_run c.sys (ruta ++ ascii "/" ++ dName)
            refine Follows.after (run_onSys read) ?_
            rw [opened]
            unfold Pending.files
            rw [show (c.pending c.sys.faults).fault = c.sys.faults.headD false from rfl]
            cases c.sys.faults.headD false with
            | true =>
                have skipped := @ih fileCount { c with sys := s₁ } (tree₁.trans here) storedRest
                  (by omega)
                simp only [if_true]
                rw [show ({ c with sys := s₁ } : Conn).sys.faults = _ from faults₁] at skipped
                exact skipped
            | false =>
                simp only [Bool.false_eq_true, if_false, Option.map_some]
                refine Follows.bind (@follows_enviarFichero { c with sys := s₁ } env
                  c.sys.faults.tail fileCount dName _) fun _ c₂ p₂ on₂ => ?_
                obtain rfl := on₂.pending
                rw [← show c₂.sys.faults = c.sys.faults.tail from on₂.left.trans faults₁]
                exact ih (on₂.tree.trans (tree₁.trans here)) storedRest (by omega)

theorem listContentServ_reply {s s' : Sys} {username usernameFolder : Bytes}
    {reply : Bytes × Int × Option Bytes}
    (ran : (listContentServ username usernameFolder).run s = .ok reply s') :
    s'.tree = s.tree ∧ s'.faults = s.faults.tail ∧
      match (if s.faults.headD false then none else s.tree.opendir (folderOf usernameFolder)) with
      | none => reply = (ascii "Usuario no registrado\n", -1, none)
      | some entries =>
          reply = (ascii "0", ((regularEntries entries).length : Int), some usernameFolder) := by
  unfold listContentServ at ran
  replace ran := sprintf_then ran
  obtain ⟨s₁, opened, tree₁, faults₁⟩ := opendir_faulty_run s (folderOf usernameFolder)
  rw [EStateM.run_bind, opened] at ran
  cases fault : s.faults.headD false with
  | true =>
      rw [fault] at ran
      obtain ⟨rfl, rfl⟩ := pure_ok.mp ran
      exact ⟨tree₁, faults₁, rfl⟩
  | false =>
      rw [fault] at ran
      simp only [Bool.false_eq_true, if_false] at ran ⊢
      cases listed : s.tree.opendir (folderOf usernameFolder) with
      | none =>
          rw [listed] at ran
          obtain ⟨rfl, rfl⟩ := pure_ok.mp ran
          exact ⟨tree₁, faults₁, rfl⟩
      | some entries =>
          rw [listed] at ran
          simp only [Option.map_some, run_closedir] at ran
          replace ran := sprintf_then ran
          obtain ⟨rfl, rfl⟩ := pure_ok.mp ran
          exact ⟨tree₁, faults₁, rfl⟩

theorem enviarFicheros_none (env : Surroundings) (ruta : Bytes) (listed : List (Name × Node)) :
    enviarFicheros env ruta (-1) 0 listed = pure () := by
  cases listed with
  | nil => rfl
  | cons entry rest =>
      unfold enviarFicheros
      rw [if_pos (by decide)]

theorem follows_answered (faults : List Bool) (message : Bytes) {γ δ : Type}
    {next : Bytes → Handler γ} {rest : Pending → Option δ} {R : γ → Conn → δ → Prop}
    (second : ∀ recibido c', Continues c.sys faults c' (c'.pending faults) →
      Follows .returned (next recibido) c' (rest (c'.pending faults)) R) :
    Follows .returned (do
        responder message
        let recibido ← leerCampo
        next recibido) c ((c.pending faults).acknowledged message.length >>= rest) R := by
  simp only [Pending.acknowledged, bind_assoc, pure_bind]
  refine Follows.bind (follows_responder faults _) fun _ c₁ p₁ on₁ => ?_
  obtain rfl := on₁.pending
  refine Follows.bind (follows_leerCampo faults) ?_
  rintro recibido c₂ ⟨_, p₂⟩ ⟨_, on₂⟩
  obtain rfl := on₂.pending
  exact second recibido c₂ (on₁.trans on₂)

theorem follows_listContent (env : Surroundings) {username usernameFolder : Bytes} {s : Sys}
    {c : Conn} {reply : Bytes × Int × Option Bytes} {p : Pending} (input : p.input = c.input)
    (writes : p.writes = c.writes) (faults : p.faults = s.faults)
    (ran : (listContentServ username usernameFolder).run s = .ok reply c.sys) :
    Follows .returned (do
        responder (reply.1 ++ [0])
        listarContenido env ⟨reply.1, some reply.2.1, reply.2.2⟩) c
      (Pending.listContent env s.tree usernameFolder p) fun _ _ _ => True := by
  obtain ⟨tree, left, answered⟩ := listContentServ_reply ran
  have start : p.afterFault = c.pending s.faults.tail := by
    rw [Pending.afterFault, input, writes, faults]
    rfl
  unfold Pending.listContent
  rw [Pending.fault, faults, start]
  simp only
  cases listed : (if s.faults.headD false then none
      else s.tree.opendir (folderOf usernameFolder)) with
  | none =>
      rw [listed] at answered
      subst answered
      rw [show 23 = (ascii "Usuario no registrado\n" ++ [0]).length by decide]
      refine follows_answered _ _ fun recibido c₁ on₁ => ?_
      simp only [enviarContenido, Option.getD_some, enviarCuenta]
      rw [if_neg (by decide)]
      refine Follows.bind (follows_responder s.faults.tail _) fun _ c₂ p₂ on₂ => ?_
      obtain rfl := on₂.pending
      refine Follows.skip (fun _ => onSys_ne_returned) fun ruta c₃ ran => ?_
      obtain ⟨s₃, written, rfl⟩ := onSys_ok ran
      obtain ⟨rfl, rfl⟩ := sprintf_ok written
      obtain ⟨s₄, opened, tree₄, faults₄⟩ := opendir_faulty_run c₂.sys (folderOf [])
      refine Follows.after (run_onSys opened) ?_
      have there := (on₁.trans on₂).tree.trans tree
      have faults₂ := (on₁.trans on₂).left.trans left
      rw [there, faults₂, show (c₂.pending s.faults.tail).fault = s.faults.tail.headD false from rfl]
      cases s.faults.tail.headD false with
      | true => exact Follows.stops
      | false =>
          simp only [Bool.false_eq_true, if_false, false_or]
          cases s.tree.opendir (folderOf []) with
          | none => exact Follows.stops
          | some entries =>
              simp only [Option.map_some, reduceCtorEq, if_false, enviarFicheros_none]
              exact Follows.pure trivial
  | some entries =>
      rw [listed] at answered
      subst answered
      have read : s.tree.opendir (folderOf usernameFolder) = some entries := by
        split at listed
        · cases listed
        · exact listed
      obtain ⟨folder, found, shape⟩ := find_of_opendir read
      rw [show 2 = (ascii "0" ++ [(0 : UInt8)]).length by decide]
      refine follows_answered _ _ fun recibido c₁ on₁ => ?_
      simp only [enviarContenido, Option.getD_some, enviarCuenta]
      split
      · exact Follows.aside rfl (by simp)
      · rename_i fits
        have size : ((decimal ((regularEntries entries).length : Int) ++
            List.replicate 256 (0 : UInt8)).take
              (((regularEntries entries).length : Int) + 1).toNat).length =
            (regularEntries entries).length + 1 := by
          rw [List.length_take, List.length_append, List.length_replicate]
          omega
        rw [← size]
        refine Follows.bind (follows_responder s.faults.tail _) fun _ c₂ p₂ on₂ => ?_
        obtain rfl := on₂.pending
        refine Follows.skip (fun _ => onSys_ne_returned) fun ruta c₃ ran => ?_
        obtain ⟨s₃, written, rfl⟩ := onSys_ok ran
        obtain ⟨rfl, rfl⟩ := sprintf_ok written
        obtain ⟨s₄, opened, tree₄, faults₄⟩ :=
          opendir_faulty_run c₂.sys (folderOf usernameFolder)
        refine Follows.after (run_onSys opened) ?_
        have there := (on₁.trans on₂).tree.trans tree
        have faults₂ := (on₁.trans on₂).left.trans left
        rw [there, faults₂, read,
          show (c₂.pending s.faults.tail).fault = s.faults.tail.headD false from rfl]
        cases s.faults.tail.headD false with
        | true => exact Follows.stops
        | false =>
            simp only [Bool.false_eq_true, if_false, Option.map_some]
            rw [← bind_pure (Pending.files _ _ _ _)]
            have following := @follows_enviarFicheros env (folderOf usernameFolder) folder s.tree
              (folderOf_ne_nil _) (find_node found).1 ((regularEntries entries).length : Int)
              entries 0 { c₂ with sys := s₄ } (tree₄.trans there)
              (fun e member => mem_entries.mp (shape ▸ member)) (by simp)
            rw [show ({ c₂ with sys := s₄ } : Conn).sys.faults = s.faults.tail.tail by
              rw [← faults₂]; exact faults₄] at following
            exact Follows.bind following fun _ _ _ _ => Follows.pure trivial

end Following

/-! ### The whole handler -/

abbrev Yields {α : Type} (op : Op α) (P : α → Prop) : Prop := Preserves (fun _ => True) op P

theorem Yields.after {α β : Type} {op : Op α} {next : α → Op β} {P : β → Prop}
    (second : ∀ a, Yields (next a) P) : Yields (op >>= next) P :=
  Preserves.bind (P := fun _ => True) (fun _ _ => ⟨trivial, fun _ _ _ => trivial⟩)
    fun a _ => second a

theorem code_length {request : Request} (notListing : ¬ request.IsListing) :
    Yields (serve request) fun reply => reply.res.length = 1 := by
  have coded : ∀ {op : Op Bytes}, Yields op (fun res => res.length = 1) →
      Yields (answer op) fun reply => reply.res.length = 1 :=
    fun returned => Preserves.bind returned fun _ one => Preserves.pure one
  have digit : ∀ code : Bytes, code.length = 1 →
      Yields (pure code) fun res => res.length = 1 := fun _ one => Preserves.pure one
  cases request with
  | register username =>
      refine coded (Preserves.ite (fun _ => digit _ rfl) fun _ => Yields.after fun _ =>
        Yields.after fun _ => Preserves.ite (fun _ => digit _ rfl) fun _ => Yields.after fun _ =>
        Preserves.ite (fun _ => digit _ rfl) fun _ => digit _ rfl)
  | unregister username =>
      refine coded (Yields.after fun _ => Yields.after fun _ =>
        Preserves.ite (fun _ => digit _ rfl) fun _ => Yields.after fun dir => ?_)
      cases dir with
      | none => exact digit _ rfl
      | some dir =>
          exact Yields.after fun _ => Preserves.ite (fun _ => Yields.after fun _ => digit _ rfl)
            fun _ => Yields.after fun _ => Yields.after fun _ =>
              Preserves.ite (fun _ => digit _ rfl) fun _ => digit _ rfl
  | connect username freePort freeServer =>
      exact coded (Yields.after fun _ => Yields.after fun _ =>
        Preserves.ite (fun _ => digit _ rfl) fun _ => Yields.after fun _ => Yields.after fun _ =>
        Yields.after fun _ => Preserves.ite (fun _ => Yields.after fun _ => digit _ rfl)
          fun _ => Preserves.ite (fun _ => digit _ rfl) fun _ => Yields.after fun _ =>
          Yields.after fun _ => digit _ rfl)
  | disconnect username =>
      exact coded (Yields.after fun _ => Yields.after fun _ => Yields.after fun _ =>
        Yields.after fun _ => Preserves.ite (fun _ => Yields.after fun _ => digit _ rfl)
          fun _ => Preserves.ite (fun _ => digit _ rfl) fun _ => Yields.after fun _ =>
          Yields.after fun _ => Yields.after fun _ => Yields.after fun _ =>
          Yields.after fun _ => Yields.after fun _ =>
          Preserves.ite (fun _ => digit _ rfl) fun _ => digit _ rfl)
  | publish username fileName description =>
      refine coded (Yields.after fun _ => Yields.after fun _ => Yields.after fun _ =>
        Preserves.ite (fun _ => digit _ rfl) fun _ => Yields.after fun _ =>
        Preserves.ite (fun _ => digit _ rfl) fun _ => Yields.after fun _ =>
        Preserves.ite (fun _ => digit _ rfl) fun _ => Yields.after fun _ => Yields.after fun _ =>
        Preserves.ite (fun _ => Yields.after fun _ => ?_) fun _ => ?_)
      all_goals
        exact Preserves.ite (fun _ => digit _ rfl) fun _ => Yields.after fun _ =>
          Yields.after fun _ => Preserves.ite (fun _ => digit _ rfl) fun _ =>
          Yields.after fun _ => Yields.after fun _ => digit _ rfl
  | delete username fileName =>
      exact coded (Preserves.ite (fun _ => digit _ rfl) fun _ => Yields.after fun _ =>
        Yields.after fun _ => Preserves.ite (fun _ => digit _ rfl) fun _ => Yields.after fun _ =>
        Preserves.ite (fun _ => digit _ rfl) fun _ => Yields.after fun _ => Yields.after fun _ =>
        Preserves.ite (fun _ => digit _ rfl) fun _ => digit _ rfl)
  | listUsers username => exact absurd trivial notListing
  | listContent username usernameFolder => exact absurd trivial notListing

section Whole
variable {c : Conn}

theorem terminalRpc_run (c : Conn) (env : Surroundings) (op : UInt8) (texto username : Bytes) :
    (terminalRpc env op texto username).run c =
      if env.terminalRpc then .ok () { c with recorded := c.recorded ++ [(op, texto, username)] }
      else .error .returned c := rfl

theorem textoRpc_run (c : Conn) (request : Request) (fecha : Bytes) :
    (∃ texto, (textoRpc request fecha).run c = .ok texto c) ∨
      (textoRpc request fecha).run c = .error .overrun c := by
  have joined : ∀ attr3 : Bytes, (∃ texto, (concatenar attr3 fecha).run c = .ok texto c) ∨
      (concatenar attr3 fecha).run c = .error .overrun c := by
    intro attr3
    by_cases fits : (attr3 ++ ascii " " ++ fecha).length < 256
    · exact Or.inl ⟨attr3 ++ ascii " " ++ fecha, by simp only [concatenar, if_pos fits]; rfl⟩
    · exact Or.inr (by simp only [concatenar, if_neg fits]; rfl)
  unfold textoRpc
  split
  · exact joined _
  · exact joined _
  · exact Or.inl ⟨fecha, rfl⟩

theorem follows_atender (env : Surroundings) (op : Operacion) (request : Request) (fecha : Bytes) :
    Follows .returned (atender env op request fecha) c
      (if env.terminalRpc then Pending.reply env c.sys.tree request (c.pending c.sys.faults)
        else none) fun _ _ _ => True := by
  unfold atender contestar
  refine Follows.skip (fun _ => onSys_ne_returned) fun reply c₁ ran => ?_
  obtain ⟨s', served, rfl⟩ := servir_ok ran
  rcases textoRpc_run { c with sys := s', served := c.served ++ [request] } request fecha with
    ⟨texto, ran⟩ | ran
  · refine Follows.after ran ?_
    have sent := terminalRpc_run { c with sys := s', served := c.served ++ [request] } env op.code
      texto request.username
    cases recorded : env.terminalRpc with
    | false =>
        rw [recorded] at sent
        exact Follows.ends sent
    | true =>
        rw [recorded] at sent
        refine Follows.after sent ?_
        simp only [if_true]
        have coded : ¬ request.IsListing → (reply.res ++ [(0 : UInt8)]).length = 2 := by
          intro notListing
          rw [List.length_append, (code_length notListing c.sys trivial).2 reply s' served]
          rfl
        have plain : ∀ {c' : Conn}, ¬ request.IsListing → Follows .returned (do
            responder (reply.res ++ [0])
            pure ()) c' ((c'.pending c.sys.faults).sent 2) fun _ _ _ => True := by
          intro c' notListing
          rw [← coded notListing, ← bind_pure (Pending.sent _ _)]
          exact Follows.bind (follows_responder _ _) fun _ _ _ _ => Follows.pure trivial
        cases request with
        | listUsers username =>
            obtain ⟨answered, s₁, ran, finished⟩ := bind_ok.mp served
            obtain ⟨rfl, rfl⟩ := pure_ok.mp finished
            exact follows_listUsers env rfl rfl rfl ran
        | listContent username usernameFolder =>
            obtain ⟨answered, s₁, ran, finished⟩ := bind_ok.mp served
            obtain ⟨rfl, rfl⟩ := pure_ok.mp finished
            exact follows_listContent env rfl rfl rfl ran
        | _ => exact plain (fun absurdity => absurdity)
  · exact Follows.aside ran (by simp)

theorem follows_caso (env : Surroundings) (operacion : Option Operacion) :
    Follows .returned (caso env operacion) c
      (match operacion with
        | none => some (c.pending c.sys.faults)
        | some op => do
            let (campos, p) ← (c.pending c.sys.faults).lines op.attrs
            let (_, p) ← p.line
            if env.terminalRpc then Pending.reply env c.sys.tree (op.request campos) p else none)
      fun _ _ _ => True := by
  cases operacion with
  | none => exact Follows.pure trivial
  | some op =>
      refine Follows.bind (follows_leerCampos c.sys.faults _) ?_
      rintro campos c₁ ⟨_, p₁⟩ ⟨rfl, tree₁, left₁, rfl⟩
      refine Follows.bind (follows_leerCampo c.sys.faults) ?_
      rintro fecha c₂ ⟨_, p₂⟩ ⟨rfl, on₂⟩
      obtain rfl := on₂.pending
      have following := @follows_atender c₂ env op (op.request campos) fecha
      rw [show c₂.sys.tree = c.sys.tree from on₂.tree.trans tree₁,
        show c₂.sys.faults = c.sys.faults from on₂.left.trans left₁] at following
      exact following

theorem follows_cuerpo (env : Surroundings) :
    Follows .returned (cuerpo env) c
      (Pending.handler env c.sys.tree (c.pending c.sys.faults)) fun _ _ _ => True := by
  have locked : lock.run c = .ok () { c with mutexMensaje := true } := rfl
  refine Follows.after locked ?_
  refine Follows.bind
    (@follows_leerLinea { c with mutexMensaje := true } _ _ returning_orUnlock c.sys.faults) ?_
  rintro operacion c₁ ⟨_, p₁⟩ ⟨rfl, tree₁, left₁, rfl⟩
  unfold orReturn
  cases env.clntCreate with
  | false => exact Follows.ends rfl
  | true =>
      refine Follows.after rfl ?_
      have following := @follows_caso c₁ env (operacionOf operacion)
      rw [show c₁.sys.tree = c.sys.tree from tree₁,
        show c₁.sys.faults = c.sys.faults from left₁] at following
      exact following

end Whole

theorem finishes_cases {env : Surroundings} {s : Sys} {input : List ReadResult}
    {writes : List WriteResult} {c : Conn}
    (finished : Finishes env (Conn.accepted s input writes) c) :
    Steady env s input writes ∧ Released c ∨
      ¬ Steady env s input writes ∧ c.mensajeNoCopiado = true := by
  have following := @follows_cuerpo (Conn.accepted s input writes) env
  have flagged : Keeps (fun c => c.mensajeNoCopiado = true) (cuerpo env) :=
    keeps_cuerpo ⟨⟨fun set _ => set, fun _ _ set => set, fun set => set, fun _ set => set⟩,
      fun _ set => set⟩ env (fun set => set) fun _ _ set => set
  rcases finished with ran | ran
  · obtain ⟨_, c₁, body, last⟩ := bind_ok.mp ran
    obtain ⟨p, passed, -⟩ := following.1 () c₁ body
    cases last
    have steady : Pending.handler env s.tree ⟨s.faults, input, writes⟩ = some p := passed
    exact Or.inl ⟨by rw [Steady, steady]; rfl, rfl, rfl⟩
  · rw [tratarMensaje, EStateM.run_bind] at ran
    cases body : (cuerpo env).run (Conn.accepted s input writes) with
    | ok _ c₁ => rw [body] at ran; cases ran
    | error e c₁ =>
        rw [body] at ran
        cases ran
        have unsteady : Pending.handler env s.tree ⟨s.faults, input, writes⟩ = none :=
          following.2 c body
        have set := (flagged (Conn.accepted s input writes) rfl).1
        rw [body] at set
        exact Or.inr ⟨by rw [Steady, unsteady]; simp, set⟩

/-- A handler that finishes has let `main` go on if and only if none of the
calls on its way failed. -/
theorem released_iff_steady (env : Surroundings) (s : Sys) (input : List ReadResult)
    (writes : List WriteResult) {c : Conn}
    (finished : Finishes env (Conn.accepted s input writes) c) :
    Released c ↔ Steady env s input writes := by
  rcases finishes_cases finished with ⟨steady, released⟩ | ⟨unsteady, set⟩
  · exact iff_of_true released steady
  · refine iff_of_false (fun released => ?_) unsteady
    rw [released.2] at set
    cases set

theorem released_iff_steady_register :
    Released (handled answering (Conn.accepted ⟨firstStart, [], []⟩
        (reads (ascii "REGISTER\x00ana\x0010:00\x00")) [])) ↔
      Steady answering ⟨firstStart, [], []⟩ (reads (ascii "REGISTER\x00ana\x0010:00\x00")) [] :=
  released_iff_steady answering _ _ _ (finishes_handled (by decide +kernel))

theorem returns_with_mutex :
    ¬ ∀ (env : Surroundings) (s : Sys) (input : List ReadResult) (writes : List WriteResult)
      (c : Conn), Finishes env (Conn.accepted s input writes) c → Released c := by
  intro releases
  have ends : finishes { answering with clntCreate := false } (Conn.accepted ⟨firstStart, [], []⟩
      (reads (ascii "REGISTER\x00ana\x0010:00\x00")) []) = true := by decide +kernel
  have held : (handled { answering with clntCreate := false } (Conn.accepted ⟨firstStart, [], []⟩
      (reads (ascii "REGISTER\x00ana\x0010:00\x00")) [])).mutexMensaje = true := by
    decide +kernel
  have released := releases _ _ _ _ _ (finishes_handled ends)
  rw [released.1] at held
  cases held

/-! ## What an early return does to `main` -/

/-- Where the handler is in the accept loop once it has finished. -/
def exitOf (c : Conn) : AcceptLoop.HandlerPc :=
  if c.mensajeNoCopiado then
    if c.mutexMensaje then .returnedLocked else .returnedUnlocked
  else .closed

/-- After such a connection the server accepts no other one. -/
theorem not_accepting_of_unsteady {env : Surroundings} {s : Sys} {input : List ReadResult}
    {writes : List WriteResult} {c : Conn}
    (finished : Finishes env (Conn.accepted s input writes) c)
    (unsteady : ¬ Steady env s input writes) {loop : AcceptLoop.State}
    (reached : AcceptLoop.Reachable loop) {h : AcceptLoop.Handler} (member : h ∈ loop.handlers)
    (exited : h.pc = exitOf c) : loop.main ≠ .accepting := by
  rcases finishes_cases finished with ⟨steady, _⟩ | ⟨_, set⟩
  · exact absurd steady unsteady
  · apply AcceptLoop.not_accepting_of_returned reached member
    rw [exited, exitOf, if_pos set]
    split
    · exact Or.inr rfl
    · exact Or.inl rfl

end DistrApp.Server
