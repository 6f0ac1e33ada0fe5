import DistrApp.Server.Fields

/-!
# Streams on which the handler stays inside its arrays

What the handler does is only defined as long as no array is overrun, be it by a
line, by a join or by the `*_serv` call, and none is read past its end.
`Contained` says of which requests this holds on a store with failing calls.
-/

set_option autoImplicit false

namespace DistrApp.Server

open Text FileTree Effects

/-- The handler has left an array.  A stream that is NULL ends the process. -/
def Stop.Escapes : Stop → Prop
  | .overrun => True
  | .undefined .overflow => True
  | .undefined .overread => True
  | .undefined .nullStream => False
  | .returned => False

/-- However the stream is delivered, the handler leaves no array. -/
def StaysInside (s : Sys) (bytes : Bytes) : Prop :=
  ∀ (env : Surroundings) (input : List ReadResult) (writes : List WriteResult) (e : Stop) (c : Conn),
    arrived input = bytes →
      (tratarMensaje env).run (Conn.accepted s input writes) = .error e c → ¬ e.Escapes

/-- Every path of the loop of LIST_CONTENT fits `file_path`, and no file that
opens is empty: of an empty one `description` would not be read. -/
def FilesFit (ruta : Bytes) : List Bool → List (Name × Node) → Prop
  | _, [] => True
  | faults, (_, .dir) :: rest => FilesFit ruta faults rest
  | faults, (dName, .file content) :: rest =>
      (ruta ++ ascii "/" ++ dName).length < 1024 ∧ (faults.headD false = false → content ≠ []) ∧
        FilesFit ruta faults.tail rest

/-- The count of the folder fits `res_clients`, and its files can be sent. -/
def ListingFits (s : Sys) : Request → Prop
  | .listContent _ usernameFolder =>
      s.fails 0 = false → ∀ entries, s.tree.opendir (folderOf usernameFolder) = some entries →
        (regularEntries entries).length < 256 ∧
          (s.fails 1 = false → FilesFit (folderOf usernameFolder) (s.faults.drop 2) entries)
  | _ => True

/-- Everything fits that this stream makes the handler store or send. -/
def Contained (s : Sys) (bytes : Bytes) : Prop :=
  LinesFit bytes ∧ ∀ op, operacionOf (beforeEnd bytes) = some op →
    HoldsOn s (op.request (lineas op.attrs (afterEnd bytes))) ∧
      JoinFits (op.request (lineas op.attrs (afterEnd bytes)))
        (beforeEnd (resto op.attrs (afterEnd bytes))) ∧
      (∀ ack ∈ lineas (acksOn s (op.request (lineas op.attrs (afterEnd bytes))))
        (resto (op.attrs + 1) (afterEnd bytes)), ack.length < 256) ∧
      ListingFits s (op.request (lineas op.attrs (afterEnd bytes)))

/-! ## The operations never read past an array -/

section Operations
variable {α β : Type} {s : Sys}

def Sees (op : Op α) : Prop := Meets (fun _ => True) op (fun _ _ => True) fun e _ => e ≠ .overread

theorem Settles.sees {op : Op α} {P : α → Prop} (settles : Settles op P) : Sees op :=
  Meets.consequence settles (fun _ here => here) (fun _ _ _ => trivial) fun e _ over_ => by
    rintro rfl
    cases over_

theorem Sees.bind {op : Op α} {next : α → Op β} (first : Sees op) (second : ∀ a, Sees (next a)) :
    Sees (op >>= next) := Meets.bind first second

theorem Sees.ite {c : Prop} [Decidable c] {left right : Op α} (whenTrue : Sees left)
    (whenFalse : Sees right) : Sees (if c then left else right) :=
  Meets.ite (fun _ => whenTrue) fun _ => whenFalse

theorem Sees.pure (a : α) : Sees (pure a) := Meets.pure fun _ _ => trivial

theorem sees_fclose (stream : Option Stream) : Sees (fclose stream) := by
  cases stream with
  | none => exact Meets.throw fun _ _ => Undefined.noConfusion
  | some f => exact (settles_closeHandle f.id).sees

theorem sees_unread (stream : Option Stream) : Sees (unread stream) := by
  cases stream with
  | none => exact Meets.throw fun _ _ => Undefined.noConfusion
  | some f => exact Sees.pure _

theorem sees_fputs (text : Bytes) (stream : Option Stream) : Sees (fputs text stream) := by
  cases stream with
  | none => exact Meets.throw fun _ _ => Undefined.noConfusion
  | some f => exact (settles_fputs text f).sees

theorem sees_connectServ (username freePort freeServer : Bytes) :
    Sees (connectServ username freePort freeServer) := by
  refine (settles_sprintf _ _).sees.bind fun foldername => (settles_access _).sees.bind fun _ =>
    Sees.ite (Sees.pure _) <| (settles_fopen _ _).sees.bind fun conectadosFile =>
    (sees_unread _).bind fun text => (settles_findWord _ _ _).sees.bind fun found => ?_
  refine Sees.ite ((sees_fclose _).bind fun _ => Sees.pure _) (Sees.ite (Sees.pure _) ?_)
  exact (sees_fputs _ _).bind fun _ => (sees_fclose _).bind fun _ => Sees.pure _

theorem sees_copyOthers (username : Bytes) (tempFile : Option Stream) (read : List Bytes) :
    ∀ userFound, Sees (copyOthers username tempFile userFound read) := by
  induction read with
  | nil => exact fun userFound => Sees.pure userFound
  | cons line rest ih =>
      intro userFound
      exact Sees.ite (ih true) ((sees_fputs _ _).bind fun _ => ih userFound)

theorem sees_disconnectServ (username : Bytes) : Sees (disconnectServ username) := by
  refine (settles_fopen _ _).sees.bind fun conectadosFile => (settles_fopen _ _).sees.bind
    fun tempFile => (settles_sprintf _ _).sees.bind fun foldername =>
    (settles_access _).sees.bind fun _ =>
    Sees.ite ((sees_fclose _).bind fun _ => Sees.pure _) (Sees.ite (Sees.pure _) ?_)
  refine (sees_unread _).bind fun text => (sees_copyOthers _ _ _ _).bind fun userFound =>
    (sees_fclose _).bind fun _ => (sees_fclose _).bind fun _ =>
    (settles_change _).sees.bind fun _ => (settles_change _).sees.bind fun _ => ?_
  exact Sees.ite (Sees.pure _) (Sees.pure _)

theorem sees_serve (request : Request) : Sees (serve request) := by
  cases request with
  | register username => exact (settles_answer (settles_registerServ username)).sees
  | unregister username => exact (settles_answer (settles_unregisterServ username)).sees
  | connect username freePort freeServer =>
      exact (sees_connectServ username freePort freeServer).bind fun _ => Sees.pure _
  | disconnect username => exact (sees_disconnectServ username).bind fun _ => Sees.pure _
  | publish username fileName description =>
      exact (settles_answer (settles_publishServ username fileName description)).sees
  | delete username fileName => exact (settles_answer (settles_deleteServ username fileName)).sees
  | listUsers username =>
      exact (settles_listUsersServ username).sees.bind fun _ => Sees.pure _
  | listContent username usernameFolder =>
      exact (settles_listContentServ username usernameFolder).sees.bind fun _ => Sees.pure _

/-- Where everything fits, an operation that does not return has used NULL. -/
theorem serve_stops {s' : Sys} {request : Request} {e : Undefined} (holds : HoldsOn s request)
    (ran : (serve request).run s = .error e s') : e = .nullStream := by
  cases e with
  | overflow => exact absurd ran (spares_of_holdsOn holds s')
  | overread => exact absurd rfl (Meets.threw (sees_serve request) trivial ran)
  | nullStream => rfl

end Operations

/-! ## What fits stays inside -/

abbrev Inside : Stop → Conn → Prop := fun e _ => ¬ e.Escapes

section Inside
variable {t : FileTree} {faults : List Bool} {bytes : Bytes} {env : Surroundings}

theorem inside_of_early (e : Stop) (c : Conn) (early : EarlyOnly e c) : Inside e c := by
  obtain rfl : e = .returned := early
  exact id

theorem early_sprintf {size : Nat} {text : Bytes} (fits : text.length < size) :
    Meets (Facing t faults bytes) (onSys (sprintf size text))
      (fun written c => written = text ∧ Facing t faults bytes c) EarlyOnly := by
  intro c facing
  simp only [EStateM.run, onSys, sprintf, if_pos fits]
  exact ⟨rfl, facing⟩

theorem early_opendir (path : Bytes) :
    Meets (Facing t faults bytes) (onSys (opendir path)) (fun dir c =>
      dir.map Dir.entries = (if faults.headD false then none else t.opendir path) ∧
        Facing t faults.tail bytes c) EarlyOnly := by
  rintro c ⟨rfl, rfl, left⟩
  obtain ⟨s₁, ran, tree, faults₁⟩ := opendir_faulty_run c.sys path
  rw [run_onSys ran]
  refine ⟨?_, tree, faults₁, left⟩
  cases c.sys.faults.headD false with
  | true => rfl
  | false =>
      simp only [Bool.false_eq_true, if_false, Option.map_map]
      exact Option.map_id'

theorem leerDescripcion_text {text : Bytes} (some_text : text ≠ []) (env : Surroundings)
    (fileCount : Nat) : leerDescripcion env fileCount text = pure (cutPiece 255 text).1 := by
  rw [leerDescripcion, fgets, if_neg some_text]

theorem early_enviarFichero {fp : Stream} (some_text : fp.text ≠ []) (fileCount : Nat) (dName : Name) :
    Meets (Facing t faults bytes) (enviarFichero env fileCount dName fp)
      (fun _ => Facing t faults bytes) EarlyOnly := by
  rw [enviarFichero, leerDescripcion_text some_text, pure_bind]
  exact (early_enviarDe fp _).bind fun _ => early_close fp.id

theorem early_enviarFicheros {ruta : Bytes} {folder : Path} (nonempty : ruta ≠ [])
    (resolved : t.resolve ruta = some folder) (res2 : Int) (listed : List (Name × Node)) :
    ∀ {faults : List Bool} {fileCount : Nat},
      (∀ e ∈ listed, t.node (folder ++ [e.1]) = some e.2) → FilesFit ruta faults listed →
      Meets (Facing t faults bytes) (enviarFicheros env ruta res2 fileCount listed)
        (fun _ _ => True) EarlyOnly := by
  induction listed with
  | nil => exact fun _ _ => Meets.pure fun _ _ => trivial
  | cons entry rest ih =>
      intro faults fileCount stored fits
      have storedRest : ∀ e ∈ rest, t.node (folder ++ [e.1]) = some e.2 :=
        fun e member => stored e (List.mem_cons_of_mem _ member)
      obtain ⟨dName, n⟩ := entry
      refine Meets.ite (fun _ => Meets.pure fun _ _ => trivial) fun _ => ?_
      cases n with
      | dir => exact ih storedRest fits
      | file content =>
          obtain ⟨short, some_text, later⟩ := fits
          refine (early_sprintf short).bind fun filePath => ?_
          rintro c ⟨rfl, facing⟩
          refine Meets.bind (early_fopen_read _) (fun fp => ?_) c facing
          rintro c₁ ⟨opened, facing₁⟩
          rw [openRead_entry nonempty resolved (stored (dName, .file content) List.mem_cons_self)]
            at opened
          cases fp with
          | none => exact ih storedRest later c₁ facing₁
          | some fp =>
              cases fault : faults.headD false with
              | true =>
                  rw [fault] at opened
                  cases opened
              | false =>
                  rw [fault] at opened
                  obtain rfl : fp.text = content := Option.some.inj opened
                  exact Meets.bind (early_enviarFichero (some_text fault) _ _)
                    (fun _ => ih storedRest later) c₁ facing₁

theorem tail_headD_faults (s : Sys) : s.faults.tail.headD false = s.fails 1 := by
  rw [Sys.fails]
  rcases s.faults with _ | ⟨_, _ | _⟩ <;> rfl

theorem tail_tail_faults (s : Sys) : s.faults.tail.tail = s.faults.drop 2 := by
  rw [← List.drop_one, ← List.drop_one, List.drop_drop]

/-- The second `opendir` of LIST_CONTENT, of a folder that the first one has opened. -/
theorem early_reopendir {s : Sys} {path : Bytes} {entries : List (Name × Node)}
    (listed : s.tree.opendir path = some entries) :
    Meets (Facing s.tree s.faults.tail bytes) (onSys (opendir path))
      (fun dir c => (∀ opened, dir = some opened → opened.entries = entries ∧ s.fails 1 = false) ∧
        Facing s.tree (s.faults.drop 2) bytes c) EarlyOnly := by
  refine (early_opendir path).consequence (fun _ here => here) ?_ fun _ _ early => early
  rintro dir c ⟨again, facing⟩
  rw [tail_headD_faults] at again
  rw [tail_tail_faults] at facing
  refine ⟨?_, facing⟩
  rintro opened rfl
  cases fault : s.fails 1 with
  | true =>
      rw [fault] at again
      cases again
  | false =>
      rw [fault, if_neg Bool.false_ne_true] at again
      exact ⟨Option.some.inj (again.trans listed), rfl⟩

/-- The folder that LIST_CONTENT goes on with, where there is one and it fits. -/
structure Shown (s : Sys) (ruta : Bytes) (entries : List (Name × Node)) (folder : Path) : Prop where
  listed : s.tree.opendir ruta = some entries
  resolved : s.tree.resolve ruta = some folder
  stored : ∀ e ∈ entries, s.tree.node (folder ++ [e.1]) = some e.2
  few : (regularEntries entries).length < 256
  files : s.fails 1 = false → FilesFit ruta (s.faults.drop 2) entries

theorem listContentServ_shown {s s' : Sys} {username usernameFolder : Bytes}
    {reply : Bytes × Int × Option Bytes}
    (ran : (listContentServ username usernameFolder).run s = .ok reply s')
    (fits : ListingFits s (.listContent username usernameFolder)) :
    reply = (ascii "Usuario no registrado\n", -1, none) ∨
      ∃ entries folder, Shown s (folderOf usernameFolder) entries folder ∧
        reply = (ascii "0", ((regularEntries entries).length : Int), some usernameFolder) := by
  obtain ⟨-, -, answered⟩ := listContentServ_reply ran
  cases works : s.faults.headD false with
  | true =>
      rw [works] at answered
      exact Or.inl answered
  | false =>
      cases listed : s.tree.opendir (folderOf usernameFolder) with
      | none =>
          rw [works, listed] at answered
          exact Or.inl answered
      | some entries =>
          rw [works, listed] at answered
          rw [headD_faults] at works
          obtain ⟨few, files⟩ := fits works entries listed
          obtain ⟨folder, found, shape⟩ := find_of_opendir listed
          exact Or.inr ⟨entries, folder, ⟨listed, (find_node found).1,
            fun e member => mem_entries.mp (shape ▸ member), few, files⟩, answered⟩

theorem early_enviarContenido {s s' : Sys} {username usernameFolder : Bytes}
    {reply : Bytes × Int × Option Bytes}
    (ran : (listContentServ username usernameFolder).run s = .ok reply s')
    (fits : ListingFits s (.listContent username usernameFolder)) :
    Meets (Facing s'.tree s'.faults bytes)
      (enviarContenido env ⟨reply.1, some reply.2.1, reply.2.2⟩) (fun _ _ => True) EarlyOnly := by
  have short := listContentServ_returns ran
  obtain ⟨tree, left, -⟩ := listContentServ_reply ran
  rw [tree, left]
  rcases listContentServ_shown ran fits with rfl | ⟨entries, folder, shown, rfl⟩
  · refine Meets.bind (Meets.ite (fun big => absurd big (by simp)) fun _ => early_responder _)
      fun _ => (early_sprintf (by decide)).bind fun ruta => ?_
    rintro c ⟨rfl, facing⟩
    refine Meets.bind (early_opendir _) (fun dir => ?_) c facing
    rintro c₁ ⟨-, facing₁⟩
    cases dir with
    | none => rfl
    | some dir =>
        simp only [Option.getD_some, enviarFicheros_none]
        exact Meets.bind (Meets.pure fun _ here => here)
          (fun _ => (early_close dir.id).consequence (fun _ here => here)
            (fun _ _ _ => trivial) fun _ _ early => early) c₁ facing₁
  · have few := shown.few
    refine Meets.bind (Meets.ite (fun big => ?_) fun _ => early_responder _) fun _ =>
      (early_sprintf (length_folderOf_lt.mpr
        (show 12 + usernameFolder.length < 256 by omega))).bind fun ruta => ?_
    · simp only [Option.getD_some] at big
      omega
    rintro c ⟨rfl, facing⟩
    refine Meets.bind (early_reopendir shown.listed) (fun dir => ?_) c facing
    rintro c₁ ⟨again, facing₁⟩
    cases dir with
    | none => rfl
    | some dir =>
        obtain ⟨rfl, works⟩ := again dir rfl
        exact Meets.bind (early_enviarFicheros (folderOf_ne_nil _) shown.resolved _ _ shown.stored
          (shown.files works)) (fun _ _ _ => trivial) c₁ facing₁

theorem inside_listar {s s' : Sys} {request : Request} {reply : Reply}
    (ran : (serve request).run s = .ok reply s')
    (acks : ∀ ack ∈ lineas (acksOn s request) bytes, ack.length < 256)
    (fits : ListingFits s request) :
    Meets (Facing s'.tree s'.faults bytes) (listar env request reply) (fun _ _ => True) Inside := by
  cases request with
  | listUsers username =>
      exact (early_listarUsuarios_served ran acks).consequence (fun _ here => here)
        (fun _ _ done => done) inside_of_early
  | listContent username usernameFolder =>
      obtain ⟨listed, s₁, first, finished⟩ := bind_ok.mp ran
      obtain ⟨rfl, rfl⟩ := pure_ok.mp finished
      refine Meets.consequence ?_ (fun _ here => here) (fun _ _ done => done) inside_of_early
      refine Meets.bind (early_leerCampo (acks _ List.mem_cons_self)) fun _ => ?_
      exact fun c here => early_enviarContenido first fits c here.2
  | register _ | unregister _ | connect _ _ _ | disconnect _ | publish _ _ _ | delete _ _ =>
      exact Meets.pure fun _ _ => trivial

theorem staysInside_of_contained {s : Sys} (contained : Contained s bytes) : StaysInside s bytes := by
  intro env input writes e c arrives ran
  have body : Meets (Unread s writes bytes) (cuerpo env) (fun _ _ => True) Inside := by
    refine spells_cuerpo (fun _ _ => ⟨trivial, id⟩) (fun long => absurd contained.1 long) ?_
    rintro op campos fecha ⟨named, rfl, rfl⟩ c unread
    obtain ⟨holds, joins, acks, fits⟩ := contained.2 op named
    rw [atender, EStateM.run_bind, run_servir, unread.sys]
    cases served : (serve (op.request (lineas op.attrs (afterEnd bytes)))).run s with
    | error why s' =>
        obtain rfl := serve_stops holds served
        exact id
    | ok reply s' =>
        obtain ⟨texto, joined⟩ := textoRpc_joined joins
        exact meets_contestar_of_listar (fun _ => id) joined op (inside_listar served acks fits) _
          ⟨rfl, rfl, unread.left⟩
  rw [tratarMensaje, EStateM.run_bind] at ran
  cases ended : (cuerpo env).run (Conn.accepted s input writes) with
  | ok a c₁ =>
      rw [ended] at ran
      cases ran
  | error e₁ c₁ =>
      rw [ended] at ran
      cases ran
      exact body.threw ⟨⟨rfl, rfl, rfl, rfl, rfl⟩, arrives⟩ ended

end Inside

/-! ## What does not fit leaves an array -/

section Astray
variable {α β : Type} {t : FileTree} {faults : List Bool} {bytes : Bytes} {c c' : Conn}

def Astray (op : Handler α) (c : Conn) : Prop := ∃ e c', op.run c = .error e c' ∧ e.Escapes

theorem Astray.bind {op : Handler α} {next : α → Handler β} (first : Astray op c) :
    Astray (op >>= next) c := by
  obtain ⟨e, c', ran, escapes⟩ := first
  exact ⟨e, c', by rw [EStateM.run_bind, ran], escapes⟩

theorem Astray.after {op : Handler α} {next : α → Handler β} {a : α} (ran : op.run c = .ok a c')
    (later : Astray (next a) c') : Astray (op >>= next) c := by
  obtain ⟨e, last, rest, escapes⟩ := later
  exact ⟨e, last, by rw [EStateM.run_bind, ran]; exact rest, escapes⟩

theorem Overruns.astray {op : Handler α} (overruns : Overruns op c) : Astray op c := by
  obtain ⟨c', ran⟩ := overruns
  exact ⟨_, c', ran, trivial⟩

def answeringUnterminated : Surroundings := { answering with description := fun _ => [65] }

theorem Calm.on_enviarFichero (calm : Calm t faults bytes c) (fp : Stream) (some_text : fp.text ≠ [])
    (fileCount : Nat) (dName : Name) :
    ∃ c', Calm t faults bytes c' ∧ ∀ env : Surroundings,
      (enviarFichero env fileCount dName fp).run c = .ok () c' := by
  obtain ⟨c₁, sent, calm₁, -⟩ := calm.on_enviarDe fp (registro dName (cutPiece 255 fp.text).1 ++ [0])
  refine ⟨{ c₁ with sys := { c₁.sys with handles := c₁.sys.handles ++ [.closed fp.id] } },
    ⟨calm₁.tree, calm₁.faults, calm₁.writes, calm₁.delivers⟩, fun env => ?_⟩
  rw [enviarFichero, leerDescripcion_text some_text, pure_bind, EStateM.run_bind, sent]
  rfl

theorem filesFit_of_dirs {ruta : Bytes} {listed : List (Name × Node)}
    (dirs : regularEntries listed = []) (faults : List Bool) : FilesFit ruta faults listed := by
  induction listed with
  | nil => trivial
  | cons entry rest ih =>
      obtain ⟨dName, n⟩ := entry
      cases n with
      | dir => exact ih (by simpa [regularEntries] using dirs)
      | file content => simp [regularEntries] at dirs

theorem enviarFicheros_astray {ruta : Bytes} {folder : Path} (nonempty : ruta ≠ [])
    (resolved : t.resolve ruta = some folder) {res2 : Int} (listed : List (Name × Node)) :
    ∀ {faults : List Bool} {fileCount : Nat} {c : Conn}, Calm t faults bytes c →
      (∀ e ∈ listed, t.node (folder ++ [e.1]) = some e.2) →
      (fileCount : Int) + (regularEntries listed).length ≤ res2 → ¬ FilesFit ruta faults listed →
      Astray (enviarFicheros answeringUnterminated ruta res2 fileCount listed) c := by
  induction listed with
  | nil => exact fun _ _ _ big => absurd trivial big
  | cons entry rest ih =>
      intro faults fileCount c calm stored counted big
      have storedRest : ∀ e ∈ rest, t.node (folder ++ [e.1]) = some e.2 :=
        fun e member => stored e (List.mem_cons_of_mem _ member)
      have going : ¬ res2 ≤ fileCount := by
        intro done
        exact big (filesFit_of_dirs (List.eq_nil_of_length_eq_zero (by omega)) faults)
      obtain ⟨dName, n⟩ := entry
      unfold enviarFicheros
      rw [Astray, if_neg going]
      cases n with
      | dir => exact ih calm storedRest counted big
      | file content =>
          have counted' : (fileCount : Int) + ((regularEntries rest).length + 1 : Nat) ≤ res2 := counted
          by_cases short : (ruta ++ ascii "/" ++ dName).length < 1024
          · have path : (onSys (sprintf 1024 (ruta ++ ascii "/" ++ dName))).run c =
                .ok (ruta ++ ascii "/" ++ dName) c := by
              simp only [EStateM.run, onSys, sprintf, if_pos short]
              rfl
            obtain ⟨s₁, ran, tree, left⟩ := fopen_read_run c.sys (ruta ++ ascii "/" ++ dName)
            have later := calm.with_sys tree (left.trans (by rw [calm.faults]))
            rw [calm.tree, calm.faults,
              openRead_entry nonempty resolved (stored (dName, .file content) List.mem_cons_self)]
              at ran
            refine Astray.after path (Astray.after (run_onSys ran) ?_)
            cases fault : faults.headD false with
            | true =>
                have others : ¬ FilesFit ruta faults.tail rest := fun fits =>
                  big ⟨short, ⟨fun works => absurd (fault.symm.trans works) (by decide), fits⟩⟩
                exact ih later storedRest (by omega) others
            | false =>
                by_cases empty : content = []
                · have unread : ∀ d : Conn, (leerDescripcion answeringUnterminated fileCount []).run d =
                      .error (.undefined .overread) d := fun _ => rfl
                  rw [empty]
                  exact Astray.bind (Astray.bind ⟨_, _, unread _, trivial⟩)
                · have others : ¬ FilesFit ruta faults.tail rest :=
                    fun fits => big ⟨short, ⟨fun _ => empty, fits⟩⟩
                  obtain ⟨c₂, calm₂, sent⟩ := later.on_enviarFichero
                    ⟨c.sys.handles.length, folder ++ [dName], content⟩ empty fileCount dName
                  exact Astray.after (sent _) (ih calm₂ storedRest (by push_cast at counted' ⊢; omega)
                    others)
          · refine Astray.bind ⟨.undefined .overflow, c, ?_, trivial⟩
            simp only [EStateM.run, onSys, sprintf, if_neg short]
            rfl

theorem listing_astray (op : Operacion) {request : Request} {fecha : Bytes}
    (calm : Calm t faults bytes c) (holds : HoldsOn c.sys request)
    (acks : ∀ ack ∈ lineas (acksOn c.sys request) bytes, ack.length < 256)
    (big : ¬ ListingFits c.sys request) : Astray (atender answeringUnterminated op request fecha) c := by
  cases request with
  | listContent username usernameFolder =>
      rw [ListingFits] at big
      push Not at big
      obtain ⟨works, entries, opened, big⟩ := big
      obtain ⟨reply, s', ran⟩ := serve_returns holds trivial
      obtain ⟨listed, s₁, first, finished⟩ := bind_ok.mp ran
      obtain ⟨rfl, rfl⟩ := pure_ok.mp finished
      obtain ⟨tree, left, answered⟩ := listContentServ_reply first
      rw [headD_faults, works, if_neg Bool.false_ne_true, opened] at answered
      subst answered
      refine Astray.after (by rw [run_servir, ran]) ?_
      obtain ⟨c₂, calm₂, -, -, goesOn⟩ := @Calm.on_contestar c.sys.tree c.sys.faults.tail bytes
        { c with sys := s', served := c.served ++ [.listContent username usernameFolder] }
        ⟨tree, left, calm.writes, calm.delivers⟩ op (.listContent username usernameFolder) fecha
        _ rfl
      rw [Astray, goesOn answeringUnterminated rfl]
      obtain ⟨c₃, read, calm₃, -⟩ := calm₂.on_leerCampo (acks _ List.mem_cons_self)
      refine Astray.after read ?_
      by_cases few : (regularEntries entries).length < 256
      · obtain ⟨opens, files⟩ := big few
        obtain ⟨folder, found, shape⟩ := find_of_opendir opened
        obtain ⟨c₄, counted, calm₄, -⟩ := calm₃.on_responder
          ((decimal (regularEntries entries).length ++ List.replicate 256 0).take
            (((regularEntries entries).length : Int) + 1).toNat)
        obtain ⟨s₅, ran₅, tree₅, left₅⟩ := opendir_faulty_run c₄.sys (folderOf usernameFolder)
        have calm₅ := calm₄.with_sys tree₅ (left₅.trans (by rw [calm₄.faults]))
        rw [calm₄.tree, calm₄.faults, tail_headD_faults, opens, opened] at ran₅
        have path : (onSys (sprintf 256 (folderOf usernameFolder))).run c₄ =
            .ok (folderOf usernameFolder) c₄ := by
          simp only [EStateM.run, onSys, sprintf, if_pos (length_folderOf_lt.mpr
            (show 12 + usernameFolder.length < 256 by have := listContentServ_returns first; omega))]
          rfl
        rw [tail_tail_faults] at calm₅
        refine Astray.after (a := ()) ?_ (Astray.after path (Astray.after (run_onSys ran₅) ?_))
        · rw [enviarCuenta, if_neg (by simp only [Option.getD_some]; omega)]
          exact counted
        · exact Astray.bind (enviarFicheros_astray (folderOf_ne_nil _) (find_node found).1 _ calm₅
            (fun e member => mem_entries.mp (shape ▸ member)) (by simp) files)
      · refine Astray.bind ⟨.undefined .overread, c₃, ?_, trivial⟩
        rw [enviarCuenta, if_pos (by simp only [Option.getD_some]; omega)]
        rfl
  | register _ | unregister _ | connect _ _ _ | disconnect _ | publish _ _ _ | delete _ _
  | listUsers _ => exact absurd trivial big

/-- Where something does not fit, some run leaves an array, and it is one in
which the stream arrives whole and every write is taken. -/
theorem astray_of_not_contained {s : Sys} (big : ¬ Contained s bytes) :
    ∃ env, Astray (cuerpo env) (Conn.accepted s (reads bytes) []) := by
  by_cases fit : LinesFit bytes
  · rw [Contained, not_and] at big
    have later := big fit
    push Not at later
    obtain ⟨op, named, later⟩ := later
    obtain ⟨rest, delivers, ran⟩ := cuerpo_attends fit named s
    have calm : Calm s.tree s.faults (resto (op.attrs + 1) (afterEnd bytes)) (Conn.reading s rest []) :=
      ⟨rfl, rfl, rfl, delivers⟩
    have attends : ∀ env : Surroundings, env.clntCreate = true →
        Astray (atender env op (op.request (lineas op.attrs (afterEnd bytes)))
          (beforeEnd (resto op.attrs (afterEnd bytes)))) (Conn.reading s rest []) →
        ∃ env, Astray (cuerpo env) (Conn.accepted s (reads bytes) []) := by
      intro env made astray
      exact ⟨env, by rw [Astray, ran env made]; exact astray⟩
    by_cases holds : HoldsOn s (op.request (lineas op.attrs (afterEnd bytes)))
    · by_cases joins : JoinFits (op.request (lineas op.attrs (afterEnd bytes)))
          (beforeEnd (resto op.attrs (afterEnd bytes)))
      · by_cases acks : ∀ ack ∈ lineas (acksOn s (op.request (lineas op.attrs (afterEnd bytes))))
            (resto (op.attrs + 1) (afterEnd bytes)), ack.length < 256
        · exact attends answeringUnterminated rfl
            (listing_astray op calm holds acks (later holds joins acks))
        · push Not at acks
          exact attends answering rfl (acknowledging_overruns op calm (fun _ => holds) acks).astray
      · exact attends answering rfl (joining_overruns op (fun _ => holds) joins).astray
    · have overflows : ¬ Spares (serve (op.request (lineas op.attrs (afterEnd bytes)))) s :=
        fun spares => holds (holdsOn_of_spares spares)
      rw [Spares] at overflows
      push Not at overflows
      obtain ⟨s', overflows⟩ := overflows
      have served := run_servir (Conn.reading s rest [])
        (op.request (lineas op.attrs (afterEnd bytes)))
      rw [show (Conn.reading s rest []).sys = s from rfl, overflows] at served
      exact attends answering rfl (Astray.bind ⟨_, _, served, trivial⟩)
  · obtain ⟨c, ran⟩ := cuerpo_overruns fit s
    exact ⟨answering, .overrun, c, ran, trivial⟩

theorem escapes_of_not_contained {s : Sys} (big : ¬ Contained s bytes) :
    ∃ env e c, (tratarMensaje env).run (Conn.accepted s (reads bytes) []) = .error e c ∧ e.Escapes := by
  obtain ⟨env, astray⟩ := astray_of_not_contained big
  exact ⟨env, @Astray.bind _ _ _ _ (fun _ => terminar) astray⟩

end Astray

/-- On a byte stream the handler never leaves an array exactly when everything fits. -/
theorem staysInside_iff_contained {s : Sys} {bytes : Bytes} :
    StaysInside s bytes ↔ Contained s bytes := by
  refine ⟨fun stays => ?_, staysInside_of_contained⟩
  by_contra big
  obtain ⟨env, e, c, ran, escapes⟩ := escapes_of_not_contained big
  exact stays env _ _ e c (arrived_of_delivers (delivers_reads bytes)) ran escapes

end DistrApp.Server
