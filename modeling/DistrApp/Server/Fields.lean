import DistrApp.Server.Release
import DistrApp.Server.Arriving
import DistrApp.Server.NullStreams
import DistrApp.Client.Requests

/-!
# The arrays of tratar_mensaje

`readLine` is told that it may store 1024 bytes, in arrays of 256.  `FieldsFit`
says which lines of a byte stream are read, and that each of them, and the two
fields that are joined for the record, fits; exactly then no array is overrun,
however the stream is delivered and whatever calls fail.
-/

set_option autoImplicit false

namespace DistrApp.Server

open Text FileTree Effects

/-- The cases that store into arrays of the handler after their `*_serv` call. -/
def Request.StoresAgain : Request → Prop
  | .publish _ _ _ => True
  | .delete _ _ => True
  | .listUsers _ => True
  | .listContent _ _ => True
  | _ => False

/-- No `readLine` and no `strcat` leaves its array, whatever the other calls do.
Nor does the `*_serv` call before them, after which C would define nothing of what
they store. -/
def FieldsInside (t : FileTree) (bytes : Bytes) : Prop :=
  ∀ (env : Surroundings) (s : Sys) (input : List ReadResult) (writes : List WriteResult),
    s.tree = t → arrived input = bytes →
      (∀ c, (tratarMensaje env).run (Conn.accepted s input writes) ≠ .error .overrun c) ∧
        ∀ request ∈ (handled env (Conn.accepted s input writes)).served,
          request.StoresAgain → Spares (serve request) s

/-- The file name and the timestamp fit `attr3` together. -/
def JoinFits : Request → Bytes → Prop
  | .publish _ fileName _, fecha => fileName.length + 1 + fecha.length < 256
  | .delete _ fileName, fecha => fileName.length + 1 + fecha.length < 256
  | _, _ => True

/-- How many lines of the table LIST_USERS can send. -/
def tableLines (t : FileTree) (username : Bytes) : Nat :=
  if username ≠ [] ∧ t.access (folderOf username) = true then
    match t.openRead conectadosTxt with
    | some opened => (pieces 256 opened.2).length
    | none => 0
  else 0

/-- How many acknowledgements the handler reads at most. -/
def acksRead (t : FileTree) : Request → Nat
  | .listUsers username => tableLines t username + 1
  | .listContent _ _ => 1
  | _ => 0

/-- Everything the handler reads from this stream fits an array of 256 bytes, and
so does what the `*_serv` call writes, where a case goes on to read or to join. -/
def FieldsFit (t : FileTree) (bytes : Bytes) : Prop :=
  LinesFit bytes ∧ ∀ op, operacionOf (beforeEnd bytes) = some op →
    ((op.request (lineas op.attrs (afterEnd bytes))).StoresAgain →
        ArraysHold t (op.request (lineas op.attrs (afterEnd bytes)))) ∧
      JoinFits (op.request (lineas op.attrs (afterEnd bytes)))
        (beforeEnd (resto op.attrs (afterEnd bytes))) ∧
      ∀ ack ∈ lineas (acksRead t (op.request (lineas op.attrs (afterEnd bytes))))
        (resto (op.attrs + 1) (afterEnd bytes)), ack.length < 256

/-- How many `fopen` of a loop work before one fails. -/
def reopened : Nat → List Bool → Nat
  | 0, _ => 0
  | n + 1, faults => if faults.headD false then 0 else reopened n faults.tail + 1

/-- The acknowledgements that are read with the calls of `s` failing. -/
def acksOn (s : Sys) : Request → Nat
  | .listUsers username =>
      reopened (if s.fails 0 then 0 else tableLines s.tree username) s.faults.tail + 1
  | .listContent _ _ => 1
  | _ => 0

theorem reopened_le (n : Nat) (faults : List Bool) : reopened n faults ≤ n := by
  induction n generalizing faults with
  | zero => exact Nat.zero_le _
  | succ n ih =>
      rw [reopened]
      split
      · exact Nat.zero_le _
      · exact Nat.succ_le_succ (ih _)

theorem reopened_calm (n : Nat) : reopened n [] = n := by
  induction n with
  | zero => rfl
  | succ n ih => exact congrArg (· + 1) ih

theorem acksOn_le (s : Sys) (request : Request) : acksOn s request ≤ acksRead s.tree request := by
  cases request with
  | listUsers username =>
      refine Nat.succ_le_succ ((reopened_le _ _).trans ?_)
      split
      · exact Nat.zero_le _
      · exact le_rfl
  | listContent _ _ => exact le_rfl
  | register _ | unregister _ | connect _ _ _ | disconnect _ | publish _ _ _ | delete _ _ =>
      exact le_rfl

theorem acksOn_calm (t : FileTree) (request : Request) :
    acksOn ⟨t, [], []⟩ request = acksRead t request := by
  cases request with
  | listUsers username => exact congrArg (· + 1) (reopened_calm _)
  | listContent _ _ => rfl
  | register _ | unregister _ | connect _ _ _ | disconnect _ | publish _ _ _ | delete _ _ => rfl

theorem mem_lineas_of_le {m n : Nat} (le : m ≤ n) {bytes ack : Bytes}
    (member : ack ∈ lineas m bytes) : ack ∈ lineas n bytes := by
  induction m generalizing n bytes with
  | zero => cases member
  | succ m ih =>
      obtain ⟨n, rfl⟩ := Nat.exists_eq_add_of_le le
      rw [Nat.add_right_comm, lineas]
      rcases List.mem_cons.mp member with rfl | later
      · exact List.mem_cons_self
      · exact List.mem_cons_of_mem _ (ih (Nat.le_add_right m n) later)

/-! ## Reading what fits -/

/-- The tree is there, these calls fail, and this is still to be read. -/
structure Facing (t : FileTree) (faults : List Bool) (bytes : Bytes) (c : Conn) : Prop where
  tree : c.sys.tree = t
  faults : c.sys.faults = faults
  left : arrived c.input = bytes

abbrev EarlyOnly : Stop → Conn → Prop := fun e _ => e = .returned

section Facing
variable {t : FileTree} {faults : List Bool} {bytes : Bytes}

theorem early_leerLinea {test : Bool → Handler Unit} {held : Bool → Bool}
    (returning : Returning test held) (fits : (beforeEnd bytes).length < 256) :
    Meets (Facing t faults bytes) (leerLinea test)
      (fun linea c => linea = beforeEnd bytes ∧ Facing t faults (afterEnd bytes) c) EarlyOnly := by
  rintro c ⟨tree, left, rfl⟩
  have line := readLine_arrived fits
  rw [run_leerLinea returning]
  generalize readLine 1024 c.input = result at line ⊢
  obtain ⟨kept | _ | kept, rest⟩ := result
  · have short : kept.length ≤ 256 := line
    simp only [if_pos short]
  · rw [line.1]
    exact ⟨rfl, tree, left, line.2⟩
  · obtain ⟨rfl, after⟩ := line
    simp only [if_pos fits]
    exact ⟨trivial, tree, left, after⟩

theorem early_leerCampo (fits : (beforeEnd bytes).length < 256) :
    Meets (Facing t faults bytes) leerCampo
      (fun campo c => campo = beforeEnd bytes ∧ Facing t faults (afterEnd bytes) c) EarlyOnly :=
  early_leerLinea returning_orReturn fits

theorem early_enviar (message : Bytes) :
    Meets (Facing t faults bytes) (enviar message) (fun _ => Facing t faults bytes) EarlyOnly :=
  fun _ facing => ⟨facing.tree, facing.faults, facing.left⟩

theorem early_close (id : Nat) : Meets (Facing t faults bytes) (onSys (closeHandle id))
    (fun _ => Facing t faults bytes) EarlyOnly :=
  fun _ facing => ⟨facing.tree, facing.faults, facing.left⟩

theorem early_responder (message : Bytes) :
    Meets (Facing t faults bytes) (responder message) (fun _ => Facing t faults bytes) EarlyOnly := by
  refine (early_enviar message).bind fun ok => Meets.ite (fun _ => Meets.pure fun _ here => here) ?_
  exact fun _ _ _ => rfl

theorem early_enviarDe (fp : Stream) (message : Bytes) :
    Meets (Facing t faults bytes) (enviarDe fp message) (fun _ => Facing t faults bytes) EarlyOnly :=
  (early_enviar message).bind fun _ => Meets.ite (fun _ => Meets.pure fun _ here => here) fun _ =>
    (early_close fp.id).bind fun _ => Meets.throw fun _ _ => rfl

theorem early_terminalRpc (env : Surroundings) (op : UInt8) (texto username : Bytes) :
    Meets (Facing t faults bytes) (terminalRpc env op texto username)
      (fun _ => Facing t faults bytes) EarlyOnly := by
  intro c facing
  simp only [EStateM.run, terminalRpc]
  cases env.terminalRpc with
  | true => exact ⟨facing.tree, facing.faults, facing.left⟩
  | false => rfl

theorem early_fopen_read (path : Bytes) :
    Meets (Facing t faults bytes) (onSys (fopen path .read)) (fun fp c =>
      fp.map Stream.text = (if faults.headD false then none else (t.openRead path).map Prod.snd) ∧
        Facing t faults.tail bytes c) EarlyOnly := by
  rintro c ⟨rfl, rfl, left⟩
  obtain ⟨s₁, ran, tree, faults₁⟩ := fopen_read_run c.sys path
  rw [run_onSys ran]
  refine ⟨?_, tree, faults₁, left⟩
  cases c.sys.faults.headD false with
  | true => rfl
  | false =>
      simp only [Bool.false_eq_true, if_false, Option.map_map]
      rfl

theorem early_listarLinea (fits : (beforeEnd bytes).length < 256) (fp : Stream) (i : Nat) :
    Meets (Facing t faults bytes) (listarLinea fp i) (fun _ => Facing t faults (afterEnd bytes))
      EarlyOnly := by
  unfold listarLinea
  split
  · exact (early_close fp.id).bind fun _ => Meets.throw fun _ _ => rfl
  · refine Meets.bind (Q := fun _ => Facing t faults bytes) ?_ fun _ =>
      (early_leerCampo fits).bind fun _ => (early_close fp.id).consequence
        (fun _ here => here.2) (fun _ _ here => here) fun _ _ early => early
    unfold enviarLinea
    split
    · exact Meets.pure fun _ here => here
    · exact early_enviarDe fp _

theorem early_listarLineas (m : Nat) :
    ∀ {faults : List Bool} {bytes : Bytes} (i : Nat),
      (∀ ack ∈ lineas (reopened m faults) bytes, ack.length < 256) →
      Meets (Facing t faults bytes) (listarLineas i m) (fun _ _ => True) EarlyOnly := by
  induction m with
  | zero => exact fun _ _ => Meets.pure fun _ _ => trivial
  | succ m ih =>
      intro faults bytes i fits
      refine (early_fopen_read conectadosTxt).bind fun fp => ?_
      rintro c ⟨opened, facing⟩
      cases fp with
      | none => rfl
      | some fp =>
          have works : faults.headD false = false := by
            by_contra fault
            rw [Bool.not_eq_false] at fault
            rw [if_pos fault] at opened
            cases opened
          rw [reopened, works, if_neg Bool.false_ne_true] at fits
          exact Meets.bind (early_listarLinea (fits _ List.mem_cons_self) fp i)
            (fun _ => ih (i + 1) fun ack member => fits ack (List.mem_cons_of_mem _ member)) c facing

/-- LIST_USERS reads an acknowledgement for its reply, and one for each line that it sends. -/
theorem early_listarUsuarios {env : Surroundings} {reply : Reply} {n : Nat}
    (fits : ∀ ack ∈ lineas (n + 1) bytes, ack.length < 256)
    (counts : reply.res = ascii "0" → reopened (reply.res2.getD env.res2).toNat faults ≤ n) :
    Meets (Facing t faults bytes) (listarUsuarios env reply) (fun _ _ => True) EarlyOnly := by
  refine Meets.bind (early_leerCampo (fits _ List.mem_cons_self)) fun _ => ?_
  rintro c ⟨-, facing⟩
  refine Meets.bind (early_enviar _) (fun _ => Meets.ite (fun zero => ?_) fun _ =>
    Meets.pure fun _ _ => trivial) c facing
  exact early_listarLineas _ 0 fun ack member =>
    fits ack (List.mem_cons_of_mem _ (mem_lineas_of_le (counts zero) member))

theorem meets_contestar_of_listar {env : Surroundings} {request : Request} {fecha texto : Bytes}
    {reply : Reply} {E : Stop → Conn → Prop} (returns : ∀ c, E .returned c)
    (recorded : textoRpc request fecha = pure texto) (op : Operacion)
    (listed : Meets (Facing t faults bytes) (listar env request reply) (fun _ _ => True) E) :
    Meets (Facing t faults bytes) (contestar env op request fecha reply) (fun _ _ => True) E := by
  have early : ∀ e c, EarlyOnly e c → E e c := by
    rintro e c rfl
    exact returns c
  rw [contestar, recorded, pure_bind]
  refine Meets.bind ((early_terminalRpc env _ _ _).consequence (fun _ here => here)
    (fun _ _ here => here) early) fun _ => ?_
  exact Meets.bind ((early_responder _).consequence (fun _ here => here) (fun _ _ here => here)
    early) fun _ => listed

end Facing

/-! ## Calls that store no field -/

def Clear {α : Type} (op : Handler α) : Prop := ∀ c c', op.run c ≠ .error .overrun c'

section Clear
variable {α β : Type}

theorem Clear.pure (a : α) : Clear (pure a) := fun _ _ ran => by cases ran

theorem Clear.throw {e : Stop} (other : e ≠ .overrun) : Clear (throw e : Handler α) := by
  intro c c' ran
  cases ran
  exact other rfl

theorem Clear.bind {op : Handler α} {next : α → Handler β} (first : Clear op)
    (second : ∀ a, Clear (next a)) : Clear (op >>= next) := by
  intro c last ran
  rw [EStateM.run_bind] at ran
  cases middle : op.run c with
  | ok a c' =>
      rw [middle] at ran
      exact second a c' last ran
  | error e c' =>
      rw [middle] at ran
      cases ran
      exact first c last middle

theorem Clear.ite {p : Prop} [Decidable p] {left right : Handler α} (whenTrue : Clear left)
    (whenFalse : Clear right) : Clear (if p then left else right) := by
  split
  · exact whenTrue
  · exact whenFalse

theorem Clear.meets {op : Handler α} (clear : Clear op) :
    Meets (fun _ => True) op (fun _ _ => True) fun e _ => e ≠ .overrun := by
  intro c _
  cases ran : op.run c with
  | ok a c' => trivial
  | error e c' =>
      rintro rfl
      exact clear c c' ran

theorem clear_onSys (op : Op α) : Clear (onSys op) := by
  intro c c' ran
  simp only [EStateM.run, onSys] at ran
  split at ran <;> cases ran

theorem clear_enviar (message : Bytes) : Clear (enviar message) := fun _ _ ran => by cases ran

theorem clear_orUnlock (ok : Bool) : Clear (orUnlock ok) :=
  Clear.ite (Clear.pure _) (Clear.bind (fun _ _ ran => by cases ran) fun _ => Clear.throw (by decide))

theorem clear_orClose (fp : Stream) (ok : Bool) : Clear (orClose fp ok) :=
  Clear.ite (Clear.pure _) (Clear.bind (clear_onSys _) fun _ => Clear.throw (by decide))

theorem clear_responder (message : Bytes) : Clear (responder message) :=
  Clear.bind (clear_enviar _) fun _ => clear_orUnlock _

theorem clear_enviarDe (fp : Stream) (message : Bytes) : Clear (enviarDe fp message) :=
  Clear.bind (clear_enviar _) fun _ => clear_orClose fp _

theorem clear_enviarFichero (env : Surroundings) (fileCount : Nat) (dName : Name) (fp : Stream) :
    Clear (enviarFichero env fileCount dName fp) := by
  refine Clear.bind ?_ fun _ => Clear.bind (clear_enviarDe fp _) fun _ => clear_onSys _
  unfold leerDescripcion
  split
  · exact Clear.pure _
  · exact Clear.ite (Clear.pure _) (Clear.throw (by decide))

theorem clear_enviarFicheros (env : Surroundings) (ruta : Bytes) (res2 : Int) (fileCount : Nat)
    (listed : List (Name × Node)) : Clear (enviarFicheros env ruta res2 fileCount listed) := by
  induction listed generalizing fileCount with
  | nil => exact Clear.pure _
  | cons entry rest ih =>
      obtain ⟨dName, n⟩ := entry
      refine Clear.ite (Clear.pure _) ?_
      cases n with
      | dir => exact ih fileCount
      | file content =>
          refine Clear.bind (clear_onSys _) fun filePath => Clear.bind (clear_onSys _) fun fp => ?_
          cases fp with
          | none => exact ih fileCount
          | some fp => exact Clear.bind (clear_enviarFichero env _ _ fp) fun _ => ih (fileCount + 1)

theorem clear_enviarContenido (env : Surroundings) (reply : Reply) :
    Clear (enviarContenido env reply) := by
  refine Clear.bind (Clear.ite (Clear.throw (by decide)) (clear_responder _)) fun _ =>
    Clear.bind (clear_onSys _) fun _ => Clear.bind (clear_onSys _) fun dir => ?_
  cases dir with
  | none => exact Clear.throw (by decide)
  | some dir => exact Clear.bind (clear_enviarFicheros env _ _ _ _) fun _ => clear_onSys _

end Clear

/-! ## The operations return only within their own arrays -/

section Returns
variable {s s' : Sys} {username : Bytes}

theorem sprintf_fits {α : Type} {size : Nat} {text : Bytes} {next : Bytes → Op α} {a : α}
    (ran : (sprintf size text >>= next).run s = .ok a s') : text.length < size := by
  by_contra long
  rw [run_sprintf, if_neg long] at ran
  cases ran

theorem listContentServ_returns {usernameFolder : Bytes} {reply : Bytes × Int × Option Bytes}
    (ran : (listContentServ username usernameFolder).run s = .ok reply s') :
    usernameFolder.length < 38 := by
  have folder := sprintf_fits ran
  rw [folderOf_length] at folder
  omega

end Returns

/-! ## What fits is not overrun -/

section Fitting
variable {t : FileTree} {bytes : Bytes} {env : Surroundings}

def Served (t : FileTree) (request : Request) (reply : Reply) : Prop :=
  ∃ s s' : Sys, s.tree = t ∧ (serve request).run s = .ok reply s'

abbrev NoOverrun : Stop → Conn → Prop := fun e _ => e ≠ .overrun

theorem textoRpc_joined {request : Request} {fecha : Bytes} (joins : JoinFits request fecha) :
    ∃ texto, textoRpc request fecha = pure texto := by
  have joined : ∀ fileName : Bytes, fileName.length + 1 + fecha.length < 256 →
      concatenar fileName fecha = pure (fileName ++ ascii " " ++ fecha) := by
    intro fileName fits
    refine if_pos ?_
    simp only [List.length_append, show (ascii " ").length = 1 by decide]
    exact fits
  cases request with
  | publish username fileName description => exact ⟨_, joined fileName joins⟩
  | delete username fileName => exact ⟨_, joined fileName joins⟩
  | register _ | unregister _ | connect _ _ _ | disconnect _ | listUsers _ | listContent _ _ =>
      exact ⟨_, rfl⟩

theorem served_listUsers {s s' : Sys} {username : Bytes} {reply : Reply}
    (ran : (serve (.listUsers username)).run s = .ok reply s') (zero : reply.res = ascii "0") :
    s.fails 0 = false ∧ reply.res2 = some (tableLines s.tree username : Int) ∧
      s'.faults = s.faults.tail := by
  obtain ⟨listed, s₁, first, finished⟩ := bind_ok.mp ran
  obtain ⟨rfl, rfl⟩ := pure_ok.mp finished
  have answered := (listUsersServ_reply (p := ⟨s.faults, [], []⟩) rfl first).2
  unfold Pending.table at answered
  split at answered
  · exact absurd zero answered.1
  · rename_i text found
    split at found
    · cases found
    · rename_i usable
      rw [Pending.fault, headD_faults, not_or, not_or, Bool.not_eq_false, Bool.not_eq_true]
        at usable
      obtain ⟨opened, read, rfl⟩ := Option.map_eq_some_iff.mp found
      rw [answered.1, tableLines, if_pos ⟨usable.1, usable.2.1⟩, read]
      exact ⟨usable.2.2, rfl, answered.2⟩

theorem early_listarUsuarios_served {s s' : Sys} {username : Bytes} {reply : Reply}
    (ran : (serve (.listUsers username)).run s = .ok reply s')
    (fits : ∀ ack ∈ lineas (acksOn s (.listUsers username)) bytes, ack.length < 256) :
    Meets (Facing s'.tree s'.faults bytes) (listarUsuarios env reply) (fun _ _ => True)
      EarlyOnly := by
  refine early_listarUsuarios fits fun zero => ?_
  obtain ⟨works, counted, left⟩ := served_listUsers ran zero
  rw [counted, left, works, if_neg Bool.false_ne_true, Option.getD_some, Int.toNat_natCast]

theorem meets_listar {s s' : Sys} {request : Request} {reply : Reply}
    (ran : (serve request).run s = .ok reply s')
    (fits : ∀ ack ∈ lineas (acksOn s request) bytes, ack.length < 256) :
    Meets (Facing s'.tree s'.faults bytes) (listar env request reply) (fun _ _ => True)
      NoOverrun := by
  have early : ∀ (e : Stop) (c : Conn), e = .returned → e ≠ .overrun := by
    rintro e c rfl
    exact Stop.noConfusion
  cases request with
  | listUsers username =>
      exact (early_listarUsuarios_served ran fits).consequence (fun _ here => here)
        (fun _ _ done => done) early
  | listContent username usernameFolder =>
      refine Meets.bind ((early_leerCampo (fits _ List.mem_cons_self)).consequence
        (fun _ here => here) (fun _ _ here => here) early) fun _ => ?_
      exact fun c _ => (clear_enviarContenido env reply).meets c trivial
  | register _ | unregister _ | connect _ _ _ | disconnect _ | publish _ _ _ | delete _ _ =>
      exact Meets.pure fun _ _ => trivial

theorem meets_atender {s : Sys} {writes : List WriteResult} {op : Operacion} {campos : List Bytes}
    {fecha : Bytes} (joins : JoinFits (op.request campos) fecha)
    (fits : ∀ ack ∈ lineas (acksOn s (op.request campos)) bytes, ack.length < 256) :
    Meets (Unread s writes bytes) (atender env op (op.request campos) fecha) (fun _ _ => True)
      NoOverrun := by
  intro c unread
  rw [atender, EStateM.run_bind, run_servir, unread.sys]
  cases ran : (serve (op.request campos)).run s with
  | error why s' => exact Stop.noConfusion
  | ok reply s' =>
      obtain ⟨texto, joined⟩ := textoRpc_joined joins
      exact meets_contestar_of_listar (fun _ => Stop.noConfusion) joined op
        (meets_listar ran fits) _ ⟨rfl, rfl, unread.left⟩

theorem overrunsNot_of_fit (fit : FieldsFit t bytes) {s : Sys} {input : List ReadResult}
    (tree : s.tree = t) (arrives : arrived input = bytes) (writes : List WriteResult) (c : Conn) :
    (tratarMensaje env).run (Conn.accepted s input writes) ≠ .error .overrun c := by
  intro ran
  have body : Meets (Unread s writes bytes) (cuerpo env) (fun _ _ => True) NoOverrun := by
    refine spells_cuerpo (fun _ _ => ⟨trivial, Stop.noConfusion⟩) (fun long => absurd fit.1 long) ?_
    rintro op campos fecha ⟨named, rfl, rfl⟩
    obtain ⟨_, joins, acks⟩ := fit.2 op named
    refine meets_atender joins fun ack member => acks ack ?_
    rw [← tree]
    exact mem_lineas_of_le (acksOn_le s _) member
  rw [tratarMensaje, EStateM.run_bind] at ran
  cases ended : (cuerpo env).run (Conn.accepted s input writes) with
  | ok a c₁ =>
      rw [ended] at ran
      cases ran
  | error e c₁ =>
      rw [ended] at ran
      cases ran
      exact body.threw ⟨⟨rfl, rfl, rfl, rfl, rfl⟩, arrives⟩ ended rfl

theorem fieldsInside_of_fit (fit : FieldsFit t bytes) : FieldsInside t bytes := by
  rintro env s input writes rfl rfl
  refine ⟨overrunsNot_of_fit fit rfl rfl writes, fun request member again => ?_⟩
  obtain ⟨op, campos, fecha, spells, rfl⟩ := served_spelled member
  obtain ⟨named, rfl, rfl⟩ := spells
  exact spares_serve ((fit.2 op named).1 again)

end Fitting

/-! ## What does not fit is overrun

Once it is certain which line is too long, one run that reaches it is enough. -/

section Overrunning
variable {α β : Type} {t : FileTree} {faults : List Bool} {bytes : Bytes} {c c' : Conn}

def Overruns (op : Handler α) (c : Conn) : Prop := ∃ c', op.run c = .error .overrun c'

theorem Overruns.bind {op : Handler α} {next : α → Handler β} (first : Overruns op c) :
    Overruns (op >>= next) c := by
  obtain ⟨c', ran⟩ := first
  exact ⟨c', by rw [EStateM.run_bind, ran]⟩

theorem Overruns.after {op : Handler α} {next : α → Handler β} {a : α}
    (ran : op.run c = .ok a c') (later : Overruns (next a) c') : Overruns (op >>= next) c := by
  obtain ⟨last, rest⟩ := later
  exact ⟨last, by rw [EStateM.run_bind, ran]; exact rest⟩

structure Calm (t : FileTree) (faults : List Bool) (bytes : Bytes) (c : Conn) : Prop where
  tree : c.sys.tree = t
  faults : c.sys.faults = faults
  writes : c.writes = []
  delivers : Delivers c.input bytes

theorem Calm.with_sys (calm : Calm t faults bytes c) {s : Sys} (tree : s.tree = c.sys.tree)
    {faults' : List Bool} (left : s.faults = faults') : Calm t faults' bytes { c with sys := s } :=
  ⟨tree.trans calm.tree, left, calm.writes, calm.delivers⟩

theorem Calm.on_enviar (calm : Calm t faults bytes c) (message : Bytes) :
    ∃ c', (enviar message).run c = .ok true c' ∧ Calm t faults bytes c' ∧ c'.sys = c.sys ∧
      c'.sent = c.sent ++ [message] := by
  refine ⟨{ c with writes := [], sent := c.sent ++ [message] }, ?_,
    ⟨calm.tree, calm.faults, rfl, calm.delivers⟩, rfl, rfl⟩
  simp only [EStateM.run, enviar, calm.writes, sendMessage]

theorem Calm.on_responder (calm : Calm t faults bytes c) (message : Bytes) :
    ∃ c', (responder message).run c = .ok () c' ∧ Calm t faults bytes c' ∧ c'.sys = c.sys ∧
      c'.sent = c.sent ++ [message] := by
  obtain ⟨c', sent, after⟩ := calm.on_enviar message
  refine ⟨c', ?_, after⟩
  rw [responder, EStateM.run_bind, sent]
  rfl

theorem Calm.on_enviarDe (calm : Calm t faults bytes c) (fp : Stream) (message : Bytes) :
    ∃ c', (enviarDe fp message).run c = .ok () c' ∧ Calm t faults bytes c' ∧
      c'.sent = c.sent ++ [message] := by
  obtain ⟨c', sent, after, -, grown⟩ := calm.on_enviar message
  refine ⟨c', ?_, after, grown⟩
  rw [enviarDe, EStateM.run_bind, sent]
  rfl

theorem Calm.on_leerCampo (calm : Calm t faults bytes c) (fits : (beforeEnd bytes).length < 256) :
    ∃ c', leerCampo.run c = .ok (beforeEnd bytes) c' ∧ Calm t faults (afterEnd bytes) c' ∧
      c'.sent = c.sent := by
  obtain ⟨rest, later, ran⟩ := (leerCampo_delivers calm.delivers).1 fits
  exact ⟨_, ran, ⟨calm.tree, calm.faults, calm.writes, later⟩, rfl⟩

theorem Calm.on_leerCampo_overruns (calm : Calm t faults bytes c) (long : 256 ≤ (beforeEnd bytes).length) :
    Overruns leerCampo c := by
  obtain ⟨rest, ran⟩ := (leerCampo_delivers calm.delivers).2 long
  exact ⟨_, ran⟩

theorem Calm.on_listarLinea (calm : Calm t faults bytes c) {fp : Stream} {i : Nat}
    (enough : i ≤ (pieces 256 fp.text).length) :
    (256 ≤ (beforeEnd bytes).length → Overruns (listarLinea fp i) c) ∧
      ((beforeEnd bytes).length < 256 →
        ∃ c', (listarLinea fp i).run c = .ok () c' ∧ Calm t faults (afterEnd bytes) c') := by
  obtain ⟨rest, skipped, -⟩ := saltarLineas_pieces enough
  have sends : ∃ c', (enviarLinea fp (fgets 256 rest)).run c = .ok () c' ∧ Calm t faults bytes c' := by
    cases fgets 256 rest with
    | none => exact ⟨c, rfl, calm⟩
    | some line =>
        obtain ⟨c₁, sent, calm₁, -⟩ := calm.on_enviarDe fp _
        exact ⟨c₁, sent, calm₁⟩
  obtain ⟨c₁, sent, calm₁⟩ := sends
  rw [listarLinea, skipped]
  constructor
  · intro long
    exact Overruns.after sent (calm₁.on_leerCampo_overruns long).bind
  · intro short
    obtain ⟨c₂, read, calm₂, -⟩ := calm₁.on_leerCampo short
    refine ⟨{ c₂ with sys := { c₂.sys with handles := c₂.sys.handles ++ [.closed fp.id] } }, ?_,
      calm₂.tree, calm₂.faults, calm₂.writes, calm₂.delivers⟩
    simp only [EStateM.run_bind, sent, read]
    rfl

theorem listarLineas_overruns {file : Path} {text : Bytes}
    (opened : t.openRead conectadosTxt = some (file, text)) (n : Nat) :
    ∀ {i : Nat} {c : Conn} {faults : List Bool} {bytes : Bytes}, Calm t faults bytes c →
      i + n = (pieces 256 text).length →
      (∃ ack ∈ lineas (reopened n faults) bytes, 256 ≤ ack.length) → Overruns (listarLineas i n) c := by
  induction n with
  | zero =>
      rintro i c faults bytes _ _ ⟨ack, member, _⟩
      cases member
  | succ n ih =>
      rintro i c faults bytes calm whole ⟨ack, member, long⟩
      rw [reopened] at member
      split at member
      · cases member
      · rename_i works
        obtain ⟨s₁, ran, tree, left⟩ := fopen_read_run c.sys conectadosTxt
        rw [calm.faults, calm.tree, opened, if_neg works] at ran
        have calm₁ := calm.with_sys tree (show s₁.faults = faults.tail by rw [left, calm.faults])
        obtain ⟨overruns, passes⟩ := @Calm.on_listarLinea _ _ _ _ calm₁
          ⟨c.sys.handles.length, file, text⟩ i (by show i ≤ (pieces 256 text).length; omega)
        refine Overruns.after (run_onSys ran) ?_
        by_cases first : 256 ≤ (beforeEnd bytes).length
        · exact (overruns first).bind
        · obtain ⟨c₂, passed, calm₂⟩ := passes (not_le.mp first)
          refine Overruns.after passed (ih calm₂ (by omega) ⟨ack, ?_, long⟩)
          rcases List.mem_cons.mp member with rfl | later
          · exact absurd long first
          · exact later

/-- LIST_USERS reads one acknowledgement more than it opens the table. -/
theorem listarUsuarios_overruns {username : Bytes} {reply : Bytes × Option Int} {s s' : Sys}
    (calm : Calm s.tree s'.faults bytes c) (ran : (listUsersServ username).run s = .ok reply s')
    (long : ∃ ack ∈ lineas (acksOn s (.listUsers username)) bytes, 256 ≤ ack.length)
    (env : Surroundings) : Overruns (listarUsuarios env ⟨reply.1, reply.2, none⟩) c := by
  by_cases first : 256 ≤ (beforeEnd bytes).length
  · exact (calm.on_leerCampo_overruns first).bind
  · obtain ⟨ack, member, long⟩ := long
    have later : ack ∈ lineas (reopened (if s.fails 0 then 0 else tableLines s.tree username)
        s.faults.tail) (afterEnd bytes) := by
      rcases List.mem_cons.mp member with rfl | later
      · exact absurd long first
      · exact later
    obtain ⟨c₁, read, calm₁, -⟩ := calm.on_leerCampo (not_le.mp first)
    refine Overruns.after read ?_
    obtain ⟨c₂, sent, calm₂, -⟩ := calm₁.on_enviar (decimal (reply.2.getD env.res2) ++ [0])
    refine Overruns.after sent ?_
    have answered := (listUsersServ_reply (p := ⟨s.faults, [], []⟩) rfl ran).2
    rw [Pending.table, Pending.fault, headD_faults] at answered
    cases works : s.fails 0 with
    | true =>
        rw [works] at later
        cases later
    | false =>
        rw [works, if_neg Bool.false_ne_true, tableLines] at later
        split at later
        · rename_i usable
          simp only [usable.1, usable.2, works, Bool.true_eq_false, Bool.false_eq_true, or_self,
            if_false] at answered
          cases opened : s.tree.openRead conectadosTxt with
          | none =>
              rw [opened] at later
              cases later
          | some file =>
              rw [opened] at later answered
              obtain ⟨rfl, left⟩ := answered
              rw [left] at calm₂
              simp only [if_true, Option.getD_some, Int.toNat_natCast]
              exact listarLineas_overruns opened _ calm₂ (Nat.zero_add _) ⟨ack, later, long⟩
        · cases later

theorem atender_of_served {env : Surroundings} {op : Operacion} {request : Request}
    {fecha : Bytes} {reply : Reply} {s' : Sys} (ran : (serve request).run c.sys = .ok reply s')
    (later : Overruns (contestar env op request fecha reply)
      { c with sys := s', served := c.served ++ [request] }) :
    Overruns (atender env op request fecha) c :=
  Overruns.after (by rw [run_servir, ran]) later

theorem joining_overruns {env : Surroundings} (op : Operacion) {request : Request} {fecha : Bytes}
    (holds : request.StoresAgain → HoldsOn c.sys request) (long : ¬ JoinFits request fecha) :
    Overruns (atender env op request fecha) c := by
  have overflows : ∀ (fileName : Bytes) (c : Conn), ¬ fileName.length + 1 + fecha.length < 256 →
      Overruns (concatenar fileName fecha) c := by
    intro fileName c big
    refine ⟨c, ?_⟩
    rw [concatenar]
    simp only [List.length_append, show (ascii " ").length = 1 by decide, if_neg big]
    rfl
  cases request with
  | publish username fileName description =>
      obtain ⟨reply, s', ran⟩ := serve_returns (holds trivial) trivial
      exact atender_of_served ran (overflows fileName _ long).bind
  | delete username fileName =>
      obtain ⟨reply, s', ran⟩ := serve_returns (holds trivial) trivial
      exact atender_of_served ran (overflows fileName _ long).bind
  | register _ | unregister _ | connect _ _ _ | disconnect _ | listUsers _ | listContent _ _ =>
      exact absurd trivial long

theorem Calm.on_contestar (calm : Calm t faults bytes c) (op : Operacion) {request : Request}
    {fecha : Bytes} (reply : Reply) (plain : textoRpc request fecha = pure fecha) :
    ∃ c', Calm t faults bytes c' ∧ c'.sys = c.sys ∧ c'.sent = c.sent ++ [reply.res ++ [0]] ∧
      ∀ env : Surroundings, env.terminalRpc = true →
        (contestar env op request fecha reply).run c = (listar env request reply).run c' := by
  have calm₁ : Calm t faults bytes
      { c with recorded := c.recorded ++ [(op.code, fecha, request.username)] } :=
    ⟨calm.tree, calm.faults, calm.writes, calm.delivers⟩
  obtain ⟨c₂, sent, calm₂, same, grown⟩ := calm₁.on_responder (reply.res ++ [0])
  refine ⟨c₂, calm₂, same, grown, fun env answers => ?_⟩
  have recorded : (terminalRpc env op.code fecha request.username).run c =
      .ok () { c with recorded := c.recorded ++ [(op.code, fecha, request.username)] } := by
    simp only [EStateM.run, terminalRpc, answers, if_true]
  rw [contestar, plain, pure_bind, EStateM.run_bind, recorded]
  simp only
  rw [EStateM.run_bind, sent]

theorem acknowledging_overruns (op : Operacion) {request : Request} {fecha : Bytes}
    (calm : Calm t faults bytes c) (holds : request.StoresAgain → HoldsOn c.sys request)
    (long : ∃ ack ∈ lineas (acksOn c.sys request) bytes, 256 ≤ ack.length) :
    Overruns (atender answering op request fecha) c := by
  cases request with
  | listUsers username =>
      obtain ⟨reply, s', ran⟩ := serve_returns (holds trivial) trivial
      obtain ⟨listed, s₁, first, finished⟩ := bind_ok.mp ran
      obtain ⟨rfl, rfl⟩ := pure_ok.mp finished
      refine atender_of_served ran ?_
      obtain ⟨c₂, calm₂, -, -, goesOn⟩ := @Calm.on_contestar c.sys.tree s'.faults bytes
        { c with sys := s', served := c.served ++ [.listUsers username] }
        ⟨listUsersServ_ok first, rfl, calm.writes, calm.delivers⟩ op (.listUsers username) fecha
        ⟨listed.1, listed.2, none⟩ rfl
      rw [Overruns, goesOn answering rfl]
      exact listarUsuarios_overruns calm₂ first long answering
  | listContent username usernameFolder =>
      obtain ⟨reply, s', ran⟩ := serve_returns (holds trivial) trivial
      refine atender_of_served ran ?_
      obtain ⟨c₂, calm₂, -, -, goesOn⟩ := @Calm.on_contestar s'.tree s'.faults bytes
        { c with sys := s', served := c.served ++ [.listContent username usernameFolder] }
        ⟨rfl, rfl, calm.writes, calm.delivers⟩ op (.listContent username usernameFolder) fecha
        reply rfl
      rw [Overruns, goesOn answering rfl]
      obtain ⟨ack, member, long⟩ := long
      rw [acksOn, lineas, lineas, List.mem_singleton] at member
      exact (calm₂.on_leerCampo_overruns (member ▸ long)).bind
  | register _ | unregister _ | connect _ _ _ | disconnect _ | publish _ _ _ | delete _ _ =>
      obtain ⟨_, member, _⟩ := long
      cases member

theorem fit_of_fieldsInside (inside : FieldsInside t bytes) : FieldsFit t bytes := by
  have arrives := arrived_of_delivers (delivers_reads bytes)
  have never : ∀ c, (cuerpo answering).run (Conn.accepted ⟨t, [], []⟩ (reads bytes) []) ≠
      .error .overrun c := by
    intro c ran
    obtain ⟨c', whole⟩ := @Overruns.bind _ _ _ _ (fun _ => terminar) ⟨c, ran⟩
    exact (inside answering ⟨t, [], []⟩ (reads bytes) [] rfl arrives).1 c' whole
  have fit : LinesFit bytes := by
    by_contra long
    obtain ⟨c, ran⟩ := cuerpo_overruns long ⟨t, [], []⟩
    exact never c ran
  refine ⟨fit, fun op named => ?_⟩
  obtain ⟨rest, later, ran⟩ := cuerpo_attends fit named ⟨t, [], []⟩
  have holds : (op.request (lineas op.attrs (afterEnd bytes))).StoresAgain →
      ArraysHold t (op.request (lineas op.attrs (afterEnd bytes))) := by
    intro again
    refine serve_overruns (s := ⟨t, [], []⟩) rfl
      ((inside answering ⟨t, [], []⟩ (reads bytes) [] rfl arrives).2 _ ?_ again)
    rw [handled_served, ran answering rfl, atender_served]
    exact List.mem_append_right _ (List.mem_singleton_self _)
  have held : (op.request (lineas op.attrs (afterEnd bytes))).StoresAgain →
      HoldsOn ⟨t, [], []⟩ (op.request (lineas op.attrs (afterEnd bytes))) :=
    fun again => holdsOn_of_arraysHold (holds again)
  refine ⟨holds, ?_, ?_⟩
  · by_contra long
    obtain ⟨c, overruns⟩ := joining_overruns op (c := Conn.reading ⟨t, [], []⟩ rest []) held long
    exact never c ((ran answering rfl).trans overruns)
  · by_contra long
    push Not at long
    rw [← acksOn_calm] at long
    obtain ⟨c, overruns⟩ := acknowledging_overruns op (c := Conn.reading ⟨t, [], []⟩ rest [])
      ⟨rfl, rfl, rfl, later⟩ held long
    exact never c ((ran answering rfl).trans overruns)

end Overrunning

/-- On a byte stream no array is ever overrun exactly when all that is read of it fits. -/
theorem fieldsInside_iff_fit (t : FileTree) (bytes : Bytes) :
    FieldsInside t bytes ↔ FieldsFit t bytes :=
  ⟨fit_of_fieldsInside, fieldsInside_of_fit⟩

theorem register_overruns_attr2 :
    ¬ FieldsInside firstStart
      (Client.register (String.ofList (List.replicate 128 'ñ')) "12:00:00" []).flatten := by
  intro inside
  have sent : (Client.register (String.ofList (List.replicate 128 'ñ')) "12:00:00" []).flatten =
      ascii "REGISTER" ++ 0 :: (((List.replicate 128 'ñ').flatMap String.utf8EncodeChar) ++
        0 :: ascii "12:00:00\x00") := by
    rw [Client.register, if_neg (by rw [String.length_ofList, List.length_replicate]; decide)]
    simp only [Client.allAtOnce, Client.field, Client.encode, String.toList_ofList]
    decide +kernel
  rw [sent] at inside
  have fits := (fit_of_fieldsInside inside).1.2 .register (by decide +kernel)
    ((List.replicate 128 'ñ').flatMap String.utf8EncodeChar) (by decide +kernel)
  exact absurd fits (by decide +kernel)

end DistrApp.Server
