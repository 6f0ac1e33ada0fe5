import DistrApp.Server.Arriving

/-!
# A change, its record and its reply

Each case calls its `*_serv` function first, records the request second and
replies last.  `Completed` is what a handler that ends has done when the store
has changed: the change stands even where the record fails and the client hears
nothing.
-/

set_option autoImplicit false

namespace DistrApp.Server

open Text Effects

/-- The request that the bytes spell was served from `s`.  With its record made,
once, its reply code was handed to `sendMessage`; without it, nothing was recorded
or sent. -/
def Completed (env : Surroundings) (s : Sys) (bytes : Bytes) (writes : List WriteResult)
    (c : Conn) : Prop :=
  ∃ op campos fecha texto reply s', Spells bytes op campos fecha ∧
    textoRpc (op.request campos) fecha = pure texto ∧
    c.served = [Operacion.request op campos] ∧
    (serve (op.request campos)).run s = .ok reply s' ∧ c.sys.tree = s'.tree ∧
    (env.terminalRpc = true ∧ c.recorded = [(op.code, texto, (op.request campos).username)] ∧
        c.sent = [(sendMessage writes (reply.res ++ [0])).2.1] ∨
      env.terminalRpc = false ∧ c.recorded = [] ∧ c.sent = [])

section Steps
variable {env : Surroundings} {s : Sys} {writes : List WriteResult}

def Done (env : Surroundings) (s : Sys) (bytes : Bytes) (writes : List WriteResult)
    (c : Conn) : Prop :=
  c.sys.tree = s.tree ∨ Completed env s bytes writes c

theorem Unserved.done {bytes : Bytes} {c : Conn} (unserved : Unserved s writes c) :
    Done env s bytes writes c :=
  Or.inl (by rw [unserved.sys])

/-! ## The reads -/

theorem leerLinea_frame {test : Bool → Handler Unit} {held : Bool → Bool}
    (returning : Returning test held) (c : Conn) : ∃ rest mutex,
      stopped ((leerLinea test).run c) = { c with input := rest, mutexMensaje := mutex } := by
  rw [run_leerLinea returning]
  split
  · split
    · exact ⟨_, _, rfl⟩
    · exact ⟨_, c.mutexMensaje, rfl⟩
  · exact ⟨_, c.mutexMensaje, rfl⟩
  · split <;> exact ⟨_, c.mutexMensaje, rfl⟩

theorem responder_frame (message : Bytes) (c : Conn) : ∃ rest held,
    stopped ((responder message).run c) =
      { c with
        writes := rest, mutexMensaje := held
        sent := c.sent ++ [(sendMessage c.writes message).2.1] } := by
  rcases whole : sendMessage c.writes message with ⟨ok, wire, rest⟩
  have first : (enviar message).run c =
      .ok ok { c with writes := rest, sent := c.sent ++ [wire] } := by
    simp only [EStateM.run, enviar, whole]
  rw [responder, EStateM.run_bind, first]
  cases ok with
  | true => exact ⟨rest, c.mutexMensaje, rfl⟩
  | false => exact ⟨rest, false, rfl⟩

theorem unserved_leerLinea {test : Bool → Handler Unit} {held : Bool → Bool}
    (returning : Returning test held) :
    Preserves (Unserved s writes) (leerLinea test) fun _ => True := by
  intro c unserved
  obtain ⟨rest, mutex, same⟩ := leerLinea_frame returning c
  rw [same]
  exact ⟨⟨unserved.sys, unserved.writes, unserved.served, unserved.recorded, unserved.sent⟩,
    fun _ _ _ => trivial⟩

/-! ## The call, the record and the reply -/

structure Called (s : Sys) (writes : List WriteResult) (request : Request) (reply : Reply)
    (c : Conn) : Prop where
  ran : (serve request).run s = .ok reply c.sys
  writes : c.writes = writes
  served : c.served = [request]
  recorded : c.recorded = []
  sent : c.sent = []

theorem meets_servir {bytes left : Bytes} (request : Request) :
    Meets (Unread s writes left) (servir request) (Called s writes request)
      fun e c => e = .returned → Done env s bytes writes c := by
  intro c unread
  rw [run_servir, unread.sys]
  cases ran : (serve request).run s with
  | ok reply s' =>
      exact ⟨ran, unread.writes, by rw [unread.served]; rfl, unread.recorded, unread.sent⟩
  | error why s' =>
      intro absurdity
      cases absurdity

theorem listing_tree {request : Request} {reply : Reply} {s' : Sys} (listing : request.IsListing)
    (ran : (serve request).run s = .ok reply s') : s'.tree = s.tree := by
  cases request with
  | listUsers username =>
      obtain ⟨_, s₁, first, finished⟩ := bind_ok.mp ran
      rw [(pure_ok.mp finished).2]
      exact listUsersServ_ok first
  | listContent username usernameFolder =>
      obtain ⟨_, s₁, first, finished⟩ := bind_ok.mp ran
      rw [(pure_ok.mp finished).2]
      exact listContentServ_ok first
  | register _ | unregister _ | connect _ _ _ | disconnect _ | publish _ _ _ | delete _ _ =>
      cases listing

theorem listar_of_operation {request : Request} (operation : ¬ request.IsListing) (reply : Reply) :
    listar env request reply = pure () := by
  cases request with
  | listUsers _ => exact absurd trivial operation
  | listContent _ _ => exact absurd trivial operation
  | register _ | unregister _ | connect _ _ _ | disconnect _ | publish _ _ _ | delete _ _ => rfl

theorem meets_textoRpc {P : Conn → Prop} {request : Request} {fecha : Bytes} :
    Meets P (textoRpc request fecha)
      (fun texto c => textoRpc request fecha = pure texto ∧ P c) fun e _ => e ≠ .returned := by
  have joins : ∀ attr3, Meets P (concatenar attr3 fecha)
      (fun texto c => concatenar attr3 fecha = pure texto ∧ P c) fun e _ => e ≠ .returned :=
    fun attr3 => Meets.ite (fun fits => Meets.pure fun _ here => ⟨if_pos fits, here⟩) fun _ =>
      Meets.throw fun _ _ => Stop.noConfusion
  cases request with
  | publish _ attr3 _ => exact joins attr3
  | delete _ attr3 => exact joins attr3
  | register _ | unregister _ | connect _ _ _ | disconnect _ | listUsers _ | listContent _ _ =>
      exact Meets.pure fun _ here => ⟨rfl, here⟩

variable {op : Operacion} {campos : List Bytes} {bytes fecha texto : Bytes}

theorem meets_terminalRpc {reply : Reply} (spells : Spells bytes op campos fecha)
    (fixed : textoRpc (op.request campos) fecha = pure texto) :
    Meets (Called s writes (op.request campos) reply)
      (terminalRpc env op.code texto (op.request campos).username)
      (fun _ c => env.terminalRpc = true ∧ c.writes = writes ∧
        c.served = [op.request campos] ∧ (serve (op.request campos)).run s = .ok reply c.sys ∧
        c.recorded = [(op.code, texto, (op.request campos).username)] ∧ c.sent = [])
      fun e c => e = .returned → Done env s bytes writes c := by
  intro c called
  simp only [EStateM.run, terminalRpc]
  cases rpc : env.terminalRpc with
  | true =>
      exact ⟨rfl, called.writes, called.served, called.ran,
        congrArg (· ++ [_]) called.recorded, called.sent⟩
  | false =>
      intro _
      exact Or.inr ⟨op, campos, fecha, texto, reply, c.sys, spells, fixed, called.served,
        called.ran, rfl, Or.inr ⟨rpc, called.recorded, called.sent⟩⟩

theorem meets_contestar (reply : Reply) (spells : Spells bytes op campos fecha) :
    Meets (Called s writes (op.request campos) reply)
      (contestar env op (op.request campos) fecha reply) (fun _ => Done env s bytes writes)
      fun e c => e = .returned → Done env s bytes writes c := by
  by_cases listing : (op.request campos).IsListing
  · have stable : StableRead fun c : Conn => c.sys.tree = s.tree :=
      ⟨⟨fun same tree => tree.trans same, fun _ _ same => same, fun same => same,
        fun _ same => same⟩, fun _ same => same⟩
    refine (Meets.of_stopped (D := fun c : Conn => c.sys.tree = s.tree) fun c called => ?_).consequence
      (fun _ here => here) (fun _ _ same => Or.inl same) fun _ _ same _ => Or.inl same
    exact (keeps_contestar stable env op _ fecha reply c (listing_tree listing called.ran)).1
  · refine Meets.bind (meets_textoRpc.consequence (fun _ here => here) (fun _ _ here => here)
      fun _ _ other returned => absurd returned other) fun texto => ?_
    rintro c₀ ⟨fixed, called⟩
    refine Meets.bind (meets_terminalRpc spells fixed) (fun _ => ?_) c₀ called
    rw [listar_of_operation listing]
    refine Meets.bind (Q := fun _ => Done env s bytes writes) ?_
      fun _ => Meets.pure fun _ done => done
    refine (Meets.of_stopped (D := Done env s bytes writes) ?_).consequence (fun _ here => here)
      (fun _ _ done => done) fun _ _ done _ => done
    rintro c ⟨rpc, writesSame, served, ran, recorded, sent⟩
    obtain ⟨rest, held, same⟩ := responder_frame (reply.res ++ [0]) c
    rw [same]
    refine Or.inr ⟨op, campos, fecha, texto, reply, c.sys, spells, fixed, served, ran, rfl,
      Or.inl ⟨rpc, recorded, ?_⟩⟩
    rw [sent, writesSame]
    rfl

theorem meets_cuerpo (env : Surroundings) :
    Meets (Unread s writes bytes) (cuerpo env) (fun _ => Done env s bytes writes)
      fun e c => e = .returned → Done env s bytes writes c := by
  refine spells_cuerpo (fun c unserved => ⟨unserved.done, fun _ => unserved.done⟩)
    (fun _ c unserved _ => unserved.done) ?_
  intro op campos fecha spells
  exact Meets.bind (meets_servir _) fun reply => meets_contestar reply spells

end Steps

/-- Whatever `clnt_create`, `terminal_rpc_1` and the socket do: a handler that
ends has left the store as it was, or has completed its request so far as the
record went. -/
theorem handler_completes {env : Surroundings} {s : Sys} {input : List ReadResult}
    {writes : List WriteResult} {c : Conn}
    (finished : Finishes env (Conn.accepted s input writes) c) :
    c.sys.tree = s.tree ∨ Completed env s (arrived input) writes c := by
  have unread : Unread s writes (arrived input) (Conn.accepted s input writes) :=
    ⟨⟨rfl, rfl, rfl, rfl, rfl⟩, rfl⟩
  rcases finished with ran | ran
  · obtain ⟨_, c₁, body, last⟩ := bind_ok.mp ran
    cases last
    have done : Done env s (arrived input) writes c₁ := (meets_cuerpo env).returned unread body
    exact done
  · rw [tratarMensaje, EStateM.run_bind] at ran
    cases body : (cuerpo env).run (Conn.accepted s input writes) with
    | ok _ c₁ => rw [body] at ran; cases ran
    | error e c₁ =>
        rw [body] at ran
        cases ran
        exact (meets_cuerpo env).threw unread body rfl

def registerAna : List ReadResult :=
  reads (ascii "REGISTER" ++ [0] ++ ascii "ana" ++ [0] ++ ascii "now" ++ [0])

theorem handler_completes_register :
    Completed answering ⟨firstStart, [], []⟩ (arrived registerAna) []
      (handled answering (Conn.accepted ⟨firstStart, [], []⟩ registerAna [])) := by
  have ends : finishes answering (Conn.accepted ⟨firstStart, [], []⟩ registerAna []) = true := by
    decide +kernel
  refine (handler_completes (finishes_handled ends)).resolve_left ?_
  intro same
  have created := congrArg (fun t => t.access (folderOf (ascii "ana"))) same
  revert created
  decide +kernel

def unrecording : Surroundings := { answering with terminalRpc := false }

/-- The folder of `ana` is there, but nothing was recorded or sent. -/
theorem register_unrecorded :
    ¬ ∀ (env : Surroundings) (s : Sys) (input : List ReadResult) (writes : List WriteResult)
      (c : Conn), Finishes env (Conn.accepted s input writes) c → c.sys.tree ≠ s.tree →
        c.recorded ≠ [] ∧ c.sent ≠ [] := by
  intro completes
  have ends : finishes unrecording (Conn.accepted ⟨firstStart, [], []⟩ registerAna []) = true := by
    decide +kernel
  have both := completes _ _ _ _ _ (finishes_handled ends) (fun same => by
    have created := congrArg (fun t => t.access (folderOf (ascii "ana"))) same
    revert created
    decide +kernel)
  exact both.1 (by decide +kernel)

end DistrApp.Server
