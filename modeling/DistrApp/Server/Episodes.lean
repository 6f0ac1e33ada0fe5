import DistrApp.Server.Described
import DistrApp.Server.Release

/-!
# What one connection comes to

Whatever its reads, writes and remote calls do, a handler that ends has served
nothing, or one request: the one record there may be names that request, the
first thing sent is its reply or the beginning of it, and nothing but the
`*_serv` call has touched the tree.
-/

set_option autoImplicit false

namespace DistrApp.Server

open Text Effects

/-! ## The fields a handler reads -/

/-- A string that `readLine` can have stored. -/
def Clean (campo : Bytes) : Prop := (0 : UInt8) ∉ campo ∧ newline ∉ campo

theorem readLoop_clean (n : Nat) : ∀ {input : List ReadResult} {stored : Bytes}, Clean stored →
    ∀ {text : Bytes} {rest : List ReadResult}, readLoop n stored input = (.text text, rest) →
      Clean text := by
  intro input
  induction input with
  | nil =>
      intro stored clean text rest read
      rw [readLoop] at read
      split at read <;> cases read
      exact clean
  | cons result input ih =>
      intro stored clean text rest read
      cases result with
      | interrupted => exact ih clean read
      | failed => cases read
      | byte ch =>
          rw [readLoop] at read
          split at read
          · cases read
            exact clean
          · rename_i inside
            rw [not_or] at inside
            split at read
            · refine ih ⟨?_, ?_⟩ read
              · rw [List.mem_append, List.mem_singleton, not_or]
                exact ⟨clean.1, Ne.symm inside.2⟩
              · rw [List.mem_append, List.mem_singleton, not_or]
                exact ⟨clean.2, Ne.symm inside.1⟩
            · exact ih clean read

theorem clean_nil : Clean [] := ⟨List.not_mem_nil, List.not_mem_nil⟩

theorem clean_leer {I : Conn → Prop} (keeps : Keeps I leer) :
    Preserves I leer fun campo => Clean (campo.getD []) := by
  intro c inv
  refine ⟨(keeps c inv).1, fun campo c' ran => ?_⟩
  simp only [EStateM.run, leer] at ran
  split at ran
  · split at ran <;> cases ran
    exact clean_nil
  · cases ran
    exact clean_nil
  · rename_i stored rest read
    split at ran <;> cases ran
    exact readLoop_clean 1024 clean_nil read

section Unserved
variable {s : Sys} {writes : List WriteResult}

theorem unserved_leer : Keeps (Unserved s writes) leer := by
  intro c unserved
  refine ⟨?_, fun _ _ _ => trivial⟩
  have kept : ∀ rest, Unserved s writes { c with input := rest } := fun _ =>
    ⟨unserved.sys, unserved.writes, unserved.served, unserved.recorded, unserved.sent⟩
  simp only [EStateM.run, leer]
  split
  · split <;> exact kept _
  · exact kept _
  · split <;> exact kept _

theorem clean_leerCampo : Preserves (Unserved s writes) leerCampo Clean :=
  Preserves.bind (clean_leer unserved_leer) fun _ clean =>
    Preserves.bind (P := fun _ => True) (keeps_orReturn _) fun _ _ => Preserves.pure clean

theorem clean_leerCampos (n : Nat) :
    Preserves (Unserved s writes) (leerCampos n) fun campos => ∀ campo ∈ campos, Clean campo := by
  induction n with
  | zero => exact Preserves.pure fun _ absurdity => (by cases absurdity)
  | succ n ih =>
      refine Preserves.bind clean_leerCampo fun campo clean => Preserves.bind ih fun campos all =>
        Preserves.pure fun field member => ?_
      rcases List.mem_cons.mp member with rfl | member
      · exact clean
      · exact all field member

end Unserved

theorem deliverable_of_clean (op : Operacion) {campos : List Bytes}
    (clean : ∀ campo ∈ campos, Clean campo) : (op.request campos).Deliverable := by
  have each : ∀ n, Clean (campos.getD n []) := by
    intro n
    rw [List.getD_eq_getElem?_getD]
    cases here : campos[n]? with
    | none => exact clean_nil
    | some campo => exact clean campo (List.mem_of_getElem? here)
  intro field member
  cases op <;>
    simp only [Operacion.request, Request.fields, Request.username, Request.others, List.mem_cons,
      List.not_mem_nil, or_false] at member
  case register => exact member ▸ each 0
  case unregister => exact member ▸ each 0
  case listUsers => exact member ▸ each 0
  case disconnect => exact member ▸ each 0
  case delete => rcases member with rfl | rfl <;> exact each _
  case listContent => rcases member with rfl | rfl <;> exact each _
  case connect => rcases member with rfl | rfl | rfl <;> exact each _
  case publish => rcases member with rfl | rfl | rfl <;> exact each _

/-! ## What the listings leave alone -/

def Sparing {α : Type} (op : Op α) : Prop :=
  ∀ s, (stopped (op.run s)).tree = s.tree ∧ (s.faults = [] → (stopped (op.run s)).faults = [])

theorem sparing_sprintf (size : Nat) (text : Bytes) : Sparing (sprintf size text) := by
  intro s
  rw [sprintf]
  split <;> exact ⟨rfl, fun calm => calm⟩

theorem sparing_closeHandle (id : Nat) : Sparing (closeHandle id) := fun _ =>
  ⟨rfl, fun calm => calm⟩

theorem sparing_of_run {α : Type} {op : Op α} (runs : ∀ s, ∃ a s', op.run s = .ok a s' ∧
    s'.tree = s.tree ∧ s'.faults = s.faults.tail) : Sparing op := by
  intro s
  obtain ⟨a, s', ran, tree, faults⟩ := runs s
  rw [ran]
  exact ⟨tree, fun calm => faults.trans (by rw [calm]; rfl)⟩

theorem sparing_fopen_read (path : Bytes) : Sparing (fopen path .read) :=
  sparing_of_run fun s => ⟨_, fopen_read_run s path⟩

theorem sparing_opendir (path : Bytes) : Sparing (opendir path) :=
  sparing_of_run fun s => ⟨_, opendir_faulty_run s path⟩

/-- A property that no call of a listing can end. -/
structure ListingStable (I : Conn → Prop) : Prop where
  sys : ∀ {c : Conn} {s : Sys}, I c → s.tree = c.sys.tree → (c.sys.faults = [] → s.faults = []) →
    I { c with sys := s }
  sent : ∀ {c : Conn} (rest : List WriteResult) (wire : Bytes), I c →
    I { c with writes := rest, sent := c.sent ++ [wire] }
  unlocked : ∀ {c : Conn}, I c → I { c with mutexMensaje := false }
  input : ∀ {c : Conn} (rest : List ReadResult), I c → I { c with input := rest }

namespace ListingStable
variable {I : Conn → Prop} (stable : ListingStable I)
include stable

theorem onSys {α : Type} {op : Op α} (sparing : Sparing op) : Keeps I (onSys op) := by
  intro c inv
  obtain ⟨tree, calm⟩ := sparing c.sys
  refine ⟨?_, fun _ _ _ => trivial⟩
  simp only [EStateM.run, Server.onSys] at tree calm ⊢
  cases ran : op c.sys with
  | ok a s =>
      rw [ran] at tree calm
      exact stable.sys inv tree calm
  | error why s =>
      rw [ran] at tree calm
      exact stable.sys inv tree calm

theorem enviar (message : Bytes) : Keeps I (enviar message) := fun _ inv =>
  ⟨stable.sent _ _ inv, fun _ _ _ => trivial⟩

theorem responder (message : Bytes) : Keeps I (responder message) :=
  Keeps.bind (stable.enviar message) fun _ => Keeps.ite (Keeps.pure _)
    (Keeps.bind (fun _ inv => ⟨stable.unlocked inv, fun _ _ _ => trivial⟩) fun _ => Keeps.throw _)

theorem orClose (fp : Stream) (ok : Bool) : Keeps I (orClose fp ok) :=
  Keeps.ite (Keeps.pure _)
    (Keeps.bind (stable.onSys (sparing_closeHandle _)) fun _ => Keeps.throw _)

theorem enviarDe (fp : Stream) (message : Bytes) : Keeps I (enviarDe fp message) :=
  Keeps.bind (stable.enviar message) fun _ => stable.orClose fp _

theorem leerCampo : Keeps I leerCampo := by
  refine Keeps.bind (fun c inv => ⟨?_, fun _ _ _ => trivial⟩) fun _ =>
    Keeps.bind (keeps_orReturn _) fun _ => Keeps.pure _
  simp only [EStateM.run, leer]
  split
  · split <;> exact stable.input _ inv
  · exact stable.input _ inv
  · split <;> exact stable.input _ inv

theorem listarLinea (fp : Stream) (i : Nat) : Keeps I (listarLinea fp i) := by
  unfold Server.listarLinea
  split
  · exact stable.orClose fp false
  · refine Keeps.bind ?_ fun _ => Keeps.bind stable.leerCampo fun _ =>
      stable.onSys (sparing_closeHandle _)
    unfold enviarLinea
    split
    · exact Keeps.pure _
    · exact stable.enviarDe fp _

theorem listarLineas (i n : Nat) : Keeps I (listarLineas i n) := by
  induction n generalizing i with
  | zero => exact Keeps.pure _
  | succ n ih =>
      refine Keeps.bind (stable.onSys (sparing_fopen_read _)) fun fp => ?_
      cases fp with
      | none => exact Keeps.throw _
      | some fp => exact Keeps.bind (stable.listarLinea fp i) fun _ => ih (i + 1)

theorem enviarFichero (env : Surroundings) (fileCount : Nat) (dName : Name) (fp : Stream) :
    Keeps I (enviarFichero env fileCount dName fp) := by
  refine Keeps.bind ?_ fun _ => Keeps.bind (stable.enviarDe fp _) fun _ =>
    stable.onSys (sparing_closeHandle _)
  unfold leerDescripcion
  split
  · exact Keeps.pure _
  · exact Keeps.ite (Keeps.pure _) (Keeps.throw _)

theorem enviarFicheros (env : Surroundings) (ruta : Bytes) (res2 : Int) (fileCount : Nat)
    (listed : List (Name × Node)) : Keeps I (enviarFicheros env ruta res2 fileCount listed) := by
  induction listed generalizing fileCount with
  | nil => exact Keeps.pure _
  | cons entry rest ih =>
      obtain ⟨dName, n⟩ := entry
      refine Keeps.ite (Keeps.pure _) ?_
      cases n with
      | dir => exact ih fileCount
      | file content =>
          refine Keeps.bind (stable.onSys (sparing_sprintf _ _)) fun filePath => ?_
          refine Keeps.bind (stable.onSys (sparing_fopen_read _)) fun fp => ?_
          cases fp with
          | none => exact ih fileCount
          | some fp =>
              exact Keeps.bind (stable.enviarFichero env _ _ fp) fun _ => ih (fileCount + 1)

theorem enviarContenido (env : Surroundings) (reply : Reply) :
    Keeps I (enviarContenido env reply) := by
  refine Keeps.bind (Keeps.ite (Keeps.throw _) (stable.responder _)) fun _ =>
    Keeps.bind (stable.onSys (sparing_sprintf _ _)) fun _ =>
    Keeps.bind (stable.onSys (sparing_opendir _)) fun dir => ?_
  cases dir with
  | none => exact Keeps.throw _
  | some dir =>
      exact Keeps.bind (stable.enviarFicheros _ _ _ _ _) fun _ =>
        stable.onSys (sparing_closeHandle _)

theorem listar (env : Surroundings) (request : Request) (reply : Reply) :
    Keeps I (listar env request reply) := by
  unfold Server.listar
  split
  · exact Keeps.bind stable.leerCampo fun _ => Keeps.bind (stable.enviar _) fun _ =>
      Keeps.ite (stable.listarLineas _ _) (Keeps.pure _)
  · exact Keeps.bind stable.leerCampo fun _ => stable.enviarContenido _ _
  · exact Keeps.pure _

end ListingStable

/-! ## The whole connection -/

/-- One record, of the operation, the text that its case makes for it, and the user. -/
def RecordedAs (op : Operacion) (request : Request) (c : Conn) : Prop :=
  ∃ fecha texto, textoRpc request fecha = pure texto ∧
    c.recorded = [(op.code, texto, request.username)]

/-- What a connection that has ended in `c` has done to the store `s`. -/
inductive Episode (s : Sys) (c : Conn) : Option (Request × Reply) → Prop
  | quiet : c.served = [] → c.recorded = [] → c.sent = [] → c.sys.tree = s.tree →
      (s.faults = [] → c.sys.faults = []) → Episode s c none
  /-- The request has been served, and its reply is what is sent first. -/
  | served (op : Operacion) (campos : List Bytes) (reply : Reply) (s' : Sys) :
      (op.request campos).Deliverable → (serve (op.request campos)).run s = .ok reply s' →
      c.served = [op.request campos] →
      (c.recorded = [] ∧ c.sent = [] ∨ RecordedAs op (op.request campos) c) →
      (∀ first ∈ c.sent.head?, first <+: reply.res ++ [0]) →
      c.sys.tree = s'.tree → (s'.faults = [] → c.sys.faults = []) →
      Episode s c (some (op.request campos, reply))

section Steps
variable {env : Surroundings} {s : Sys} {writes : List WriteResult} {op : Operacion}
  {campos : List Bytes} {fecha : Bytes} {reply : Reply}

structure Replying (op : Operacion) (request : Request) (reply : Reply) (s' : Sys) (c : Conn) :
    Prop where
  served : c.served = [request]
  recorded : RecordedAs op request c
  sent : ∃ first later, c.sent = first :: later ∧ first <+: reply.res ++ [0]
  tree : c.sys.tree = s'.tree
  calm : s'.faults = [] → c.sys.faults = []

theorem replying_stable (op : Operacion) (request : Request) (reply : Reply) (s' : Sys) :
    ListingStable (Replying op request reply s') where
  sys replying tree calm := ⟨replying.served, replying.recorded, replying.sent,
    tree.trans replying.tree, fun none => calm (replying.calm none)⟩
  sent _ wire replying := by
    obtain ⟨first, later, sent, whole⟩ := replying.sent
    refine ⟨replying.served, replying.recorded, ⟨first, later ++ [wire], ?_, whole⟩, replying.tree,
      replying.calm⟩
    simp only
    rw [sent, List.cons_append]
  unlocked replying := ⟨replying.served, replying.recorded, replying.sent, replying.tree,
    replying.calm⟩
  input _ replying := ⟨replying.served, replying.recorded, replying.sent, replying.tree,
    replying.calm⟩

/-- The connection has come to something that can be described. -/
def Comes (s : Sys) (c : Conn) : Prop := ∃ event, Episode s c event

theorem Unserved.comes {c : Conn} (unserved : Unserved s writes c) : Comes s c :=
  ⟨none, .quiet unserved.served unserved.recorded unserved.sent (by rw [unserved.sys])
    (by rw [unserved.sys]; exact fun calm => calm)⟩

theorem Called.comes {c : Conn} (deliverable : (op.request campos).Deliverable)
    (called : Called s writes (op.request campos) reply c) : Comes s c :=
  ⟨_, .served op campos reply c.sys deliverable called.ran called.served
    (Or.inl ⟨called.recorded, called.sent⟩) (by rw [called.sent]; simp) rfl fun calm => calm⟩

theorem Replying.comes {c : Conn} {s' : Sys} (deliverable : (op.request campos).Deliverable)
    (ran : (serve (op.request campos)).run s = .ok reply s')
    (replying : Replying op (op.request campos) reply s' c) : Comes s c := by
  obtain ⟨first, later, sent, whole⟩ := replying.sent
  refine ⟨_, .served op campos reply s' deliverable ran replying.served
    (Or.inr replying.recorded) ?_
    replying.tree replying.calm⟩
  rw [sent]
  rintro _ ⟨rfl⟩
  exact whole

theorem comes_contestar (deliverable : (op.request campos).Deliverable) :
    Meets (Called s writes (op.request campos) reply)
      (contestar env op (op.request campos) fecha reply) (fun _ => Comes s)
      fun e c => e = .returned → Comes s c := by
  intro c₀ called₀
  have ran := called₀.ran
  refine Meets.bind (P := fun c => Called s writes (op.request campos) reply c ∧ c.sys = c₀.sys)
    (Q := fun texto c => textoRpc (op.request campos) fecha = pure texto ∧
      Called s writes (op.request campos) reply c ∧ c.sys = c₀.sys) ?_
    (fun texto => Meets.bind (Q := fun _ c => c.served = [op.request campos] ∧
      RecordedAs op (op.request campos) c ∧ c.sent = [] ∧ c.sys = c₀.sys) ?_ fun _ =>
    Meets.bind (Q := fun _ => Replying op (op.request campos) reply c₀.sys) ?_ fun _ => ?_)
    c₀ ⟨called₀, rfl⟩
  · exact meets_textoRpc.consequence (fun _ here => here) (fun _ _ here => here)
      fun _ _ other returned => absurd returned other
  · rintro c ⟨fixed, called, same⟩
    simp only [EStateM.run, terminalRpc]
    cases env.terminalRpc with
    | true =>
        exact ⟨called.served, ⟨fecha, texto, fixed, congrArg (· ++ [_]) called.recorded⟩,
          called.sent, same⟩
    | false => exact fun _ => called.comes deliverable
  · refine (Meets.of_stopped (D := Replying op (op.request campos) reply c₀.sys) ?_).consequence
      (fun _ here => here) (fun _ _ here => here) fun _ _ here _ => here.comes deliverable ran
    rintro c ⟨served, recorded, sent, same⟩
    obtain ⟨rest, held, after⟩ := responder_frame (reply.res ++ [0]) c
    rw [after]
    refine ⟨served, recorded, ⟨_, [], ?_, sendMessage_prefix c.writes _⟩, by rw [same],
      by rw [same]; exact fun calm => calm⟩
    rw [sent]
    rfl
  · exact ((replying_stable op _ reply c₀.sys).listar env _ reply).meets.consequence
      (fun _ here => here) (fun _ _ here => here.comes deliverable ran)
      fun _ _ here _ => here.comes deliverable ran

/-- The steps before the `*_serv` call. -/
theorem comes_of_reads {α : Type} {op : Handler α} {T : α → Prop}
    (keeps : Preserves (Unserved s writes) op T) :
    Meets (Unserved s writes) op (fun a c => Unserved s writes c ∧ T a)
      fun e c => e = .returned → Comes s c := by
  intro c unserved
  have kept := keeps c unserved
  cases ran : op.run c with
  | ok a c' =>
      rw [ran] at kept
      exact ⟨kept.1, kept.2 a c' rfl⟩
  | error e c' =>
      rw [ran] at kept
      exact fun _ => kept.1.comes

theorem comes_servir (request : Request) :
    Meets (Unserved s writes) (servir request) (Called s writes request)
      fun e c => e = .returned → Comes s c := by
  intro c unserved
  rw [run_servir, unserved.sys]
  cases ran : (serve request).run s with
  | ok reply s' =>
      exact ⟨ran, unserved.writes, by rw [unserved.served]; rfl, unserved.recorded, unserved.sent⟩
  | error why s' => exact fun absurdity => by cases absurdity

theorem comes_caso (env : Surroundings) (operacion : Option Operacion) :
    Meets (Unserved s writes) (caso env operacion) (fun _ => Comes s)
      fun e c => e = .returned → Comes s c := by
  cases operacion with
  | none => exact Meets.pure fun _ unserved => unserved.comes
  | some op =>
      refine Meets.bind (comes_of_reads (clean_leerCampos op.attrs)) fun campos => ?_
      rintro c ⟨unserved, clean⟩
      exact Meets.bind ((comes_of_reads clean_leerCampo).consequence (fun _ here => here)
        (fun _ _ here => here.1) fun _ _ here => here) (fun fecha =>
          Meets.bind (comes_servir (op.request campos)) fun reply =>
            comes_contestar (deliverable_of_clean op clean)) c unserved

theorem comes_cuerpo (env : Surroundings) :
    Meets (Unserved s writes) (cuerpo env) (fun _ => Comes s)
      fun e c => e = .returned → Comes s c := by
  have locked : Preserves (Unserved s writes) lock fun _ => True := fun _ unserved =>
    ⟨⟨unserved.sys, unserved.writes, unserved.served, unserved.recorded, unserved.sent⟩,
      fun _ _ _ => trivial⟩
  have first : ∀ {α : Type} {op : Handler α}, Preserves (Unserved s writes) op (fun _ => True) →
      Meets (Unserved s writes) op (fun _ => Unserved s writes)
        fun e c => e = .returned → Comes s c := fun keeps =>
    (comes_of_reads keeps).consequence (fun _ here => here) (fun _ _ here => here.1)
      fun _ _ here => here
  exact Meets.bind (first locked) fun _ =>
    Meets.bind (first (unserved_leerLinea returning_orUnlock)) fun operacion =>
    Meets.bind (first (keeps_orReturn _)) fun _ => comes_caso env (operacionOf operacion)

end Steps

end DistrApp.Server
