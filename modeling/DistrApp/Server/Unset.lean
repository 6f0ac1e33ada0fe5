import DistrApp.Server.Contained
import DistrApp.Server.Acknowledged

/-!
# Uninitialised locals on the socket

LIST_USERS sends its count also when `list_users_serv` has not stored one.
Where the handler stays inside its arrays, that is the only local which reaches
the socket unset; of `description` it is true because a file that `fgets` finds
empty makes the handler read past its end.
-/

set_option autoImplicit false

namespace DistrApp.Server

open Text FileTree Effects

/-- The same services answer; the locals may hold anything. -/
def Surroundings.Alike (env env' : Surroundings) : Prop :=
  env.clntCreate = env'.clntCreate ∧ env.terminalRpc = env'.terminalRpc

def Conn.bytesSent (c : Conn) : Bytes := c.sent.flatten

/-- On this stream, what is sent does not depend on the uninitialised locals; nor
on what lies behind an array, because the handler leaves none. -/
def SendsAlike (s : Sys) (bytes : Bytes) : Prop :=
  StaysInside s bytes ∧
    ∀ (env env' : Surroundings) (input : List ReadResult) (writes : List WriteResult),
      env.Alike env' → arrived input = bytes →
        (handled env (Conn.accepted s input writes)).bytesSent =
          (handled env' (Conn.accepted s input writes)).bytesSent

/-- `list_users_serv` returns without having stored a count. -/
def Uncounted (s : Sys) (username : Bytes) : Prop :=
  username = [] ∨ s.tree.access (folderOf username) = false ∨ s.fails 0 = true ∨
    s.tree.openRead conectadosTxt = none

def SendsUnset (s : Sys) (bytes : Bytes) : Prop :=
  ∃ username, received bytes = some (.listUsers username) ∧ Uncounted s username

/-! ## Where nothing unset is sent -/

section Alike
variable {t : FileTree} {faults : List Bool} {bytes : Bytes} {env env' : Surroundings}

theorem alike_enviarFicheros {ruta : Bytes} {folder : Path} (nonempty : ruta ≠ [])
    (resolved : t.resolve ruta = some folder) (res2 : Int) (listed : List (Name × Node)) :
    ∀ {faults : List Bool} {fileCount : Nat},
      (∀ e ∈ listed, t.node (folder ++ [e.1]) = some e.2) → FilesFit ruta faults listed →
      RunsAlike (Facing t faults bytes) (enviarFicheros env ruta res2 fileCount listed)
        (enviarFicheros env' ruta res2 fileCount listed) := by
  induction listed with
  | nil => exact fun _ _ => RunsAlike.refl _
  | cons entry rest ih =>
      intro faults fileCount stored fits
      have storedRest : ∀ e ∈ rest, t.node (folder ++ [e.1]) = some e.2 :=
        fun e member => stored e (List.mem_cons_of_mem _ member)
      obtain ⟨dName, n⟩ := entry
      unfold enviarFicheros
      split
      · exact RunsAlike.refl _
      · cases n with
        | dir => exact ih storedRest fits
        | file content =>
            obtain ⟨short, some_text, later⟩ := fits
            refine RunsAlike.bind (early_sprintf short) fun filePath => ?_
            rintro c ⟨rfl, facing⟩
            refine RunsAlike.bind (early_fopen_read _) (fun fp => ?_) c facing
            rintro c₁ ⟨opened, facing₁⟩
            rw [openRead_entry nonempty resolved (stored (dName, .file content) List.mem_cons_self)]
              at opened
            cases fp with
            | none => exact ih storedRest later c₁ facing₁
            | some fp =>
                cases fault : faults.headD false with
                | true =>
                    rw [fault] at opened
                    cases opened
                | false =>
                    rw [fault] at opened
                    obtain rfl : fp.text = content := Option.some.inj opened
                    have same : enviarFichero env fileCount dName fp =
                        enviarFichero env' fileCount dName fp := by
                      rw [enviarFichero, enviarFichero, leerDescripcion_text (some_text fault),
                        leerDescripcion_text (some_text fault)]
                    simp only [same]
                    exact RunsAlike.bind (early_enviarFichero (some_text fault) _ _)
                      (fun _ => ih storedRest later) c₁ facing₁

theorem alike_enviarContenido {s s' : Sys} {username usernameFolder : Bytes}
    {reply : Bytes × Int × Option Bytes}
    (ran : (listContentServ username usernameFolder).run s = .ok reply s')
    (fits : ListingFits s (.listContent username usernameFolder)) :
    RunsAlike (Facing s'.tree s'.faults bytes)
      (enviarContenido env ⟨reply.1, some reply.2.1, reply.2.2⟩)
      (enviarContenido env' ⟨reply.1, some reply.2.1, reply.2.2⟩) := by
  have short := listContentServ_returns ran
  obtain ⟨tree, left, -⟩ := listContentServ_reply ran
  rw [tree, left]
  rcases listContentServ_shown ran fits with rfl | ⟨entries, folder, shown, rfl⟩
  · simp only [enviarContenido, Option.getD_some, enviarFicheros_none]
    exact RunsAlike.refl _
  · have few := shown.few
    simp only [enviarContenido, Option.getD_some]
    refine RunsAlike.bind (Meets.ite (fun big => by omega) fun _ => early_responder _) fun _ =>
      RunsAlike.bind (early_sprintf (length_folderOf_lt.mpr
        (show 12 + usernameFolder.length < 256 by omega))) fun ruta => ?_
    rintro c ⟨rfl, facing⟩
    refine RunsAlike.bind (early_reopendir shown.listed) (fun dir => ?_) c facing
    rintro c₁ ⟨again, facing₁⟩
    cases dir with
    | none => rfl
    | some dir =>
        obtain ⟨rfl, works⟩ := again dir rfl
        have alike := @alike_enviarFicheros s.tree bytes env env' _ folder
          (folderOf_ne_nil usernameFolder) shown.resolved (regularEntries dir.entries).length
          dir.entries _ 0 shown.stored (shown.files works)
        show ((enviarFicheros env _ _ _ _) >>= fun _ => onSys (closedir dir)).run c₁ = _
        rw [EStateM.run_bind, EStateM.run_bind, alike c₁ facing₁]

theorem listUsersServ_uncounted {s s' : Sys} {username : Bytes} {reply : Bytes × Option Int}
    (ran : (listUsersServ username).run s = .ok reply s') (uncounted : reply.2 = none) :
    Uncounted s username := by
  have answered := (listUsersServ_reply (p := ⟨s.faults, [], []⟩) rfl ran).2
  by_contra counts
  rw [Uncounted, not_or, not_or, not_or, Bool.not_eq_false, Bool.not_eq_true, ← headD_faults]
    at counts
  obtain ⟨named, present, works, readable⟩ := counts
  obtain ⟨file, opened⟩ := Option.ne_none_iff_exists'.mp readable
  have open_table : ¬ (username = [] ∨ s.tree.access (folderOf username) = false ∨
      Pending.fault ⟨s.faults, [], []⟩ = true) := by
    rw [Pending.fault, present, works]
    simpa using named
  rw [Pending.table, if_neg open_table, opened] at answered
  rw [answered.1] at uncounted
  cases uncounted

theorem alike_listar {s s' : Sys} {request : Request} {reply : Reply}
    (ran : (serve request).run s = .ok reply s')
    (acks : ∀ ack ∈ lineas (acksOn s request) bytes, ack.length < 256)
    (fits : ListingFits s request)
    (stored : ∀ username, request = .listUsers username → ¬ Uncounted s username) :
    RunsAlike (Facing s'.tree s'.faults bytes) (listar env request reply)
      (listar env' request reply) := by
  cases request with
  | listUsers username =>
      obtain ⟨listed, s₁, first, finished⟩ := bind_ok.mp ran
      obtain ⟨rfl, rfl⟩ := pure_ok.mp finished
      intro c _
      cases counted : listed.2 with
      | some n => simp only [listar, listarUsuarios, Option.getD_some]
      | none => exact absurd (listUsersServ_uncounted first counted) (stored username rfl)
  | listContent username usernameFolder =>
      obtain ⟨listed, s₁, first, finished⟩ := bind_ok.mp ran
      obtain ⟨rfl, rfl⟩ := pure_ok.mp finished
      refine RunsAlike.bind (early_leerCampo (acks _ List.mem_cons_self)) fun _ => ?_
      exact fun c here => alike_enviarContenido first fits c here.2
  | register _ | unregister _ | connect _ _ _ | disconnect _ | publish _ _ _ | delete _ _ =>
      exact RunsAlike.refl _

theorem alike_contestar (alike : env.Alike env') (op : Operacion) {request : Request}
    {reply : Reply} (fecha : Bytes)
    (listed : RunsAlike (Facing t faults bytes) (listar env request reply)
      (listar env' request reply)) :
    RunsAlike (Facing t faults bytes) (contestar env op request fecha reply)
      (contestar env' op request fecha reply) := by
  refine RunsAlike.bind (keeps_textoRpc request fecha).meets fun texto => ?_
  have same : terminalRpc env op.code texto request.username =
      terminalRpc env' op.code texto request.username := by
    funext c
    rw [terminalRpc, terminalRpc, alike.2]
  rw [same]
  exact RunsAlike.bind (early_terminalRpc env' _ _ _) fun _ =>
    RunsAlike.bind (early_responder _) fun _ => listed

theorem sendsAlike_of_stored {s : Sys} (contained : Contained s bytes)
    (stored : ¬ SendsUnset s bytes) : SendsAlike s bytes := by
  refine ⟨staysInside_of_contained contained, fun env env' input writes alike arrives => ?_⟩
  have start : Unread s writes bytes (Conn.reading s input writes) :=
    ⟨⟨rfl, rfl, rfl, rfl, rfl⟩, arrives⟩
  have body : (cuerpo env).run (Conn.accepted s input writes) =
      (cuerpo env').run (Conn.accepted s input writes) := by
    rw [cuerpo_run, cuerpo_run]
    refine RunsAlike.bind (spells_leerLinea returning_orUnlock) (fun operacion => ?_) _ start
    rintro c ⟨⟨rfl, -⟩, unread⟩
    rw [alike.1]
    refine RunsAlike.bind (keeps_orReturn _).meets (fun _ => ?_) c unread
    cases named : operacionOf (beforeEnd bytes) with
    | none => exact RunsAlike.refl _
    | some op =>
        obtain ⟨-, -, acks, fits⟩ := contained.2 op named
        refine RunsAlike.bind (spells_leerCampos op.attrs _) fun campos => ?_
        rintro c ⟨⟨rfl, -⟩, unread⟩
        refine RunsAlike.bind spells_leerCampo (fun fecha => ?_) c unread
        rintro c ⟨⟨rfl, -⟩, unread⟩
        rw [← resto_succ] at unread
        rw [atender, atender, EStateM.run_bind, EStateM.run_bind, run_servir, unread.sys]
        cases ran : (serve (op.request (lineas op.attrs (afterEnd bytes)))).run s with
        | error why s' => rfl
        | ok reply s' =>
            refine alike_contestar alike op _ (alike_listar ran acks fits fun username same => ?_) _
              ⟨rfl, rfl, unread.left⟩
            refine fun uncounted => stored ⟨username, ?_, uncounted⟩
            rw [received, named, Option.map_some, same]
  rw [handled, handled, tratarMensaje, tratarMensaje, EStateM.run_bind, EStateM.run_bind, body]

end Alike

/-! ## Where something unset is sent -/

def answeringOtherwise : Surroundings := { answering with res2 := 1 }

section Differing
variable {t : FileTree} {faults : List Bool} {bytes : Bytes} {c : Conn}

theorem listarUsuarios_differ (calm : Calm t faults bytes c) (fits : (beforeEnd bytes).length < 256)
    {res : Bytes} (refused : res ≠ ascii "0") :
    (stopped ((listarUsuarios answering ⟨res, none, none⟩).run c)).bytesSent ≠
      (stopped ((listarUsuarios answeringOtherwise ⟨res, none, none⟩).run c)).bytesSent := by
  have counts : ∀ env : Surroundings,
      (stopped ((listarUsuarios env ⟨res, none, none⟩).run c)).bytesSent =
        c.bytesSent ++ (decimal env.res2 ++ [0]) := by
    intro env
    obtain ⟨c₁, read, calm₁, same⟩ := calm.on_leerCampo fits
    obtain ⟨c₂, sent, -, -, grown⟩ := calm₁.on_enviar (decimal env.res2 ++ [0])
    simp only [listarUsuarios, EStateM.run_bind, read, Option.getD_none, sent, if_neg refused,
      EStateM.run_pure, stopped, Conn.bytesSent, grown, same]
    simp
  rw [counts, counts]
  simp only [ne_eq, List.append_cancel_left_eq]
  decide

theorem cuerpo_listar {s s' : Sys} {op : Operacion} {request : Request} {reply : Reply}
    (named : operacionOf (beforeEnd bytes) = some op)
    (same : op.request (lineas op.attrs (afterEnd bytes)) = request)
    (fit : LinesFit bytes) (ran : (serve request).run s = .ok reply s')
    (plain : ∀ fecha, textoRpc request fecha = pure fecha) :
    ∃ c, Calm s'.tree s'.faults (resto (op.attrs + 1) (afterEnd bytes)) c ∧
      ∀ env : Surroundings, env.clntCreate = true → env.terminalRpc = true →
        (handled env (Conn.accepted s (reads bytes) [])).bytesSent =
          (stopped ((listar env request reply).run c)).bytesSent := by
  obtain ⟨last, ends, attended⟩ := cuerpo_attends fit named s
  obtain ⟨c', calm, -, -, answered⟩ := @Calm.on_contestar s'.tree s'.faults
    (resto (op.attrs + 1) (afterEnd bytes))
    { Conn.reading s last [] with sys := s', served := [request] } ⟨rfl, rfl, rfl, ends⟩ op request
    (beforeEnd (resto op.attrs (afterEnd bytes))) reply (plain _)
  refine ⟨c', calm, fun env made answers => ?_⟩
  have whole : (cuerpo env).run (Conn.accepted s (reads bytes) []) =
      (listar env request reply).run c' := by
    rw [attended env made, same, ← answered env answers, atender,
      EStateM.run_bind, run_servir, show (Conn.reading s last []).sys = s from rfl, ran]
    rfl
  rw [Conn.bytesSent, (handled_cuerpo env _).2.1, whole]
  rfl

theorem listUsersServ_refuses {s : Sys} {username : Bytes} (uncounted : Uncounted s username)
    (holds : HoldsOn s (.listUsers username)) :
    ∃ res s', (listUsersServ username).run s = .ok (res, none) s' ∧ res ≠ ascii "0" := by
  unfold listUsersServ
  rw [run_ite]
  split
  · exact ⟨_, _, rfl, by decide⟩
  · rename_i named
    have unusable := uncounted.resolve_left named
    have short : username.length < 8 := holds.resolve_left named
    rw [run_sprintf, if_pos (length_folderOf_lt.mpr (by omega)), run_access, run_ite]
    split
    · exact ⟨_, _, rfl, by decide⟩
    · rename_i present
      rw [Bool.not_eq_true', Bool.not_eq_false] at present
      obtain ⟨s₁, ran, -, -⟩ := fopen_read_run s conectadosTxt
      have closed : (if s.faults.headD false = true then none
          else Option.map (fun file : Path × Bytes => Stream.mk s.handles.length file.1 file.2)
            (s.tree.openRead conectadosTxt)) = none := by
        rw [headD_faults]
        rcases unusable with absent | fault | unreadable
        · rw [absent] at present
          cases present
        · rw [if_pos fault]
        · rw [unreadable, Option.map_none, ite_self]
      rw [closed] at ran
      rw [EStateM.run_bind, ran]
      exact ⟨_, _, rfl, by decide⟩

theorem not_sendsAlike_of_unset {s : Sys} (unset : SendsUnset s bytes) : ¬ SendsAlike s bytes := by
  rintro ⟨stays, alike⟩
  have contained := staysInside_iff_contained.mp stays
  obtain ⟨username, arrives, uncounted⟩ := unset
  obtain ⟨op, named, request⟩ := Option.map_eq_some_iff.mp arrives
  obtain ⟨holds, -, acks, -⟩ := contained.2 op named
  rw [request] at holds acks
  have equal := alike answering answeringOtherwise (reads bytes) [] ⟨rfl, rfl⟩
    (arrived_of_delivers (delivers_reads bytes))
  obtain ⟨res, s', ran, refused⟩ := listUsersServ_refuses uncounted holds
  have served : (serve (.listUsers username)).run s = .ok ⟨res, none, none⟩ s' := by
    rw [serve, EStateM.run_bind, ran]
    rfl
  obtain ⟨c, calm, goesOn⟩ := cuerpo_listar named request contained.1 served fun _ => rfl
  rw [goesOn answering rfl rfl, goesOn answeringOtherwise rfl rfl] at equal
  exact listarUsuarios_differ calm (acks _ List.mem_cons_self) refused equal

end Differing

/-- What is sent is a function of the request and the store, if and only if the
handler stays inside its arrays and sends no count that no one has stored. -/
theorem sendsAlike_iff_stored (s : Sys) (bytes : Bytes) :
    SendsAlike s bytes ↔ Contained s bytes ∧ ¬ SendsUnset s bytes :=
  ⟨fun alike => ⟨staysInside_iff_contained.mp alike.1, fun unset => not_sendsAlike_of_unset unset alike⟩,
    fun both => sendsAlike_of_stored both.1 both.2⟩

/-- LIST_USERS of `ana`, whom nobody has registered: the count is whatever `res2` holds. -/
theorem listUsers_sends_res2 :
    ¬ SendsAlike ⟨firstStart, [], []⟩ (wire [ascii "LIST_USERS", ascii "ana", ascii "now", ascii "OK"]) :=
  not_sendsAlike_of_unset ⟨ascii "ana", by decide, Or.inr (Or.inl (by decide +kernel))⟩

end DistrApp.Server
