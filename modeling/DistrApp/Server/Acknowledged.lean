import DistrApp.Server.Decoding

/-!
# The acknowledgements of the listings

The client answers the reply of a listing, and each line of LIST_USERS, with
`OK`.  Wherever the handler stops, it has read at least the acknowledgements
of the messages that had one coming (`Settled`), so none is left unread.
-/

set_option autoImplicit false

namespace DistrApp.Server

open Text Effects

def acks (n : Nat) : Bytes := wire (List.replicate n (ascii "OK"))

/-- How many acknowledgements so many messages have coming: none for the count. -/
def Operacion.due : Operacion → Nat → Nat
  | listUsers, 0 => 0
  | listUsers, sent + 1 => max 1 sent
  | listContent, sent => min 1 sent
  | _, _ => 0

/-- Of `n` acknowledgements, those of the messages on the wire have been read. -/
def Settled (op : Operacion) (n : Nat) (c : Conn) : Prop :=
  ∃ read, op.due c.sent.length ≤ read ∧ Delivers c.input (acks (n - read))

def Behind (n sent read : Nat) (c : Conn) : Prop :=
  .failed ∉ c.writes ∧ c.sent.length ≤ sent ∧ Delivers c.input (acks (n - read))

@[simp] theorem due_zero (op : Operacion) : op.due 0 = 0 := by
  cases op <;> rfl

theorem due_listUsers {sent read : Nat} (short : sent ≤ read + 1) (answered : 1 ≤ read) :
    Operacion.due .listUsers sent ≤ read := by
  cases sent with
  | zero => exact Nat.zero_le _
  | succ sent => exact max_le answered (Nat.le_of_succ_le_succ short)

theorem beforeEnd_acks (n : Nat) :
    (beforeEnd (acks n)).length < 256 ∧ afterEnd (acks n) = acks (n - 1) := by
  cases n with
  | zero => exact ⟨by decide, rfl⟩
  | succ n =>
      obtain ⟨first, tail⟩ := beforeEnd_field (show (0 : UInt8) ∉ ascii "OK" ∧ newline ∉ ascii "OK"
        by decide) (acks n)
      have shape : acks (n + 1) = ascii "OK" ++ 0 :: acks n := by
        simp [acks, wire, List.replicate_succ]
      rw [shape, first, tail]
      exact ⟨by decide, rfl⟩

theorem sendMessage_whole {writes : List WriteResult} (steady : .failed ∉ writes)
    (message : Bytes) :
    (sendMessage writes message).1 = true ∧ (sendMessage writes message).2.1 = message ∧
      .failed ∉ (sendMessage writes message).2.2 := by
  induction writes generalizing message with
  | nil => exact ⟨rfl, rfl, steady⟩
  | cons result writes ih =>
      cases result with
      | failed => exact absurd List.mem_cons_self steady
      | wrote count =>
          have later : .failed ∉ writes := fun failed => steady (List.mem_cons_of_mem _ failed)
          by_cases whole : message.length = taken count message.length
          · simp only [sendMessage, if_pos whole]
            exact ⟨trivial, trivial, later⟩
          · obtain ⟨sent, wire, rest⟩ := ih later (message.drop (taken count message.length))
            simp only [sendMessage, if_neg whole]
            exact ⟨sent, by rw [wire, List.take_append_drop], rest⟩

/-! ## What each call leads to -/

section Calls
variable {n sent read : Nat} {E : Conn → Prop}

theorem leads_onSys {α : Type} (op : Op α) (allowed : ∀ c, Behind n sent read c → E c) :
    Leads (Behind n sent read) (onSys op) (fun _ => Behind n sent read) E := by
  intro c behind
  simp only [EStateM.run, onSys]
  cases op c.sys with
  | ok a s => exact behind
  | error why s => exact allowed _ behind

theorem leads_enviar (message : Bytes) :
    Leads (Behind n sent read) (enviar message)
      (fun ok c => ok = true ∧ Behind n (sent + 1) read c) E := by
  rintro c ⟨steady, short, delivers⟩
  obtain ⟨whole, _, rest⟩ := sendMessage_whole steady message
  exact ⟨whole, rest, by simpa using short, delivers⟩

theorem leads_tested (message : Bytes) (failure : Bool → Handler Unit)
    (passes : failure true = pure ()) :
    Leads (Behind n sent read) (enviar message >>= failure)
      (fun _ => Behind n (sent + 1) read) E := by
  apply Leads.bind (leads_enviar message)
  intro ok c ⟨whole, behind⟩
  rw [whole, passes]
  exact behind

theorem leads_leerCampo :
    Leads (Behind n sent read) leerCampo (fun _ => Behind n sent (read + 1)) E := by
  rintro c ⟨steady, short, delivers⟩
  obtain ⟨fits, tail⟩ := beforeEnd_acks (n - read)
  obtain ⟨rest, later, ran⟩ := (leerCampo_delivers delivers).1 fits
  rw [ran]
  rw [tail, Nat.sub_sub] at later
  exact ⟨steady, short, later⟩

end Calls

/-! ## The listings -/

section Listings
variable {n read : Nat}

theorem Behind.settled_listUsers (answered : 1 ≤ read) (c : Conn)
    (behind : Behind n (read + 1) read c) : Settled .listUsers n c :=
  ⟨read, due_listUsers behind.2.1 answered, behind.2.2⟩

theorem leads_listarLinea (answered : 1 ≤ read) (fp : Stream) (i : Nat) :
    Leads (Behind n (read + 1) read) (listarLinea fp i)
      (fun _ => Behind n (read + 2) (read + 1)) (Settled .listUsers n) := by
  have closes : ∀ {read' : Nat}, 1 ≤ read' → ∀ c, Behind n (read' + 1) read' c →
      Settled .listUsers n c := fun one => Behind.settled_listUsers one
  unfold listarLinea
  split
  · exact Leads.bind (leads_onSys _ (closes answered)) fun _ => Leads.throw (closes answered)
  · refine Leads.bind (Q := fun _ => Behind n (read + 2) read) ?_ fun _ =>
      Leads.bind leads_leerCampo fun _ => leads_onSys _ (closes (by omega))
    unfold enviarLinea
    split
    · refine Leads.pure fun c behind => ⟨behind.1, ?_, behind.2.2⟩
      exact le_trans behind.2.1 (Nat.le_succ _)
    · exact leads_tested _ (orClose fp) rfl

/-- Each pass of the loop sends one line at most and reads one acknowledgement. -/
theorem leads_listarLineas (answered : 1 ≤ read) (i m : Nat) :
    Leads (Behind n (read + 1) read) (listarLineas i m) (fun _ => Settled .listUsers n)
      (Settled .listUsers n) := by
  induction m generalizing read i with
  | zero => exact Leads.pure (Behind.settled_listUsers answered)
  | succ m ih =>
      refine Leads.bind (leads_onSys _ (Behind.settled_listUsers answered)) fun fp => ?_
      cases fp with
      | none => exact Leads.throw (Behind.settled_listUsers answered)
      | some fp =>
          exact Leads.bind (leads_listarLinea answered fp i) fun _ => ih (by omega) (i + 1)

theorem leads_listarUsuarios (env : Surroundings) (reply : Reply) :
    Leads (Behind n 1 0) (listarUsuarios env reply) (fun _ => Settled .listUsers n)
      (Settled .listUsers n) := by
  refine Leads.bind leads_leerCampo fun _ => Leads.bind (leads_enviar _) fun _ => ?_
  apply Leads.consequence (P := Behind n 2 1) _ (fun c sent => sent.2) fun _ _ settled => settled
  exact Leads.ite (leads_listarLineas (le_refl 1) _ _)
    (Leads.pure (Behind.settled_listUsers (le_refl 1)))

theorem leads_listarContenido (env : Surroundings) (reply : Reply) :
    Leads (Behind n 1 0) (listarContenido env reply) (fun _ => Settled .listContent n)
      (Settled .listContent n) := by
  have enough : ∀ c : Conn, Delivers c.input (acks (n - 1)) → Settled .listContent n c :=
    fun c delivers => ⟨1, min_le_left _ _, delivers⟩
  have stable : Stable fun c : Conn => Delivers c.input (acks (n - 1)) :=
    ⟨fun same _ => same, fun _ _ same => same, fun same => same, fun _ same => same⟩
  refine Leads.bind leads_leerCampo fun _ => ?_
  exact ((keeps_enviarContenido stable env reply).leads enough).consequence
    (fun c behind => behind.2.2) fun _ c => enough c

end Listings

/-! ## The whole case -/

section Whole
variable {n : Nat}

theorem Behind.settled_start (op : Operacion) (c : Conn) (behind : Behind n 0 0 c) :
    Settled op n c :=
  ⟨0, by rw [Nat.le_zero.mp behind.2.1, due_zero], behind.2.2⟩

theorem leads_answered {op : Operacion} (silent : ∀ sent, op.due sent = 0) (env : Surroundings)
    (request : Request) (fecha : Bytes) (reply : Reply) (alone : listar env request reply = pure ()) :
    Leads (Behind n 0 0) (contestar env op request fecha reply) (fun _ => Settled op n)
      (Settled op n) := by
  have enough : ∀ c : Conn, Delivers c.input (acks n) → Settled op n c :=
    fun c delivers => ⟨0, by rw [silent], delivers⟩
  have stable : Stable fun c : Conn => Delivers c.input (acks n) :=
    ⟨fun same _ => same, fun _ _ same => same, fun same => same, fun _ same => same⟩
  have kept := keeps_contestar_of_listar stable env op request fecha reply
    (by rw [alone]; exact Keeps.pure _)
  exact (kept.leads enough).consequence (fun c behind => behind.2.2) fun _ c => enough c

theorem leads_reply {op : Operacion} (env : Surroundings) (request : Request) (fecha : Bytes)
    (reply : Reply)
    (listed : Leads (Behind n 1 0) (listar env request reply) (fun _ => Settled op n)
      (Settled op n)) :
    Leads (Behind n 0 0) (contestar env op request fecha reply) (fun _ => Settled op n)
      (Settled op n) := by
  refine Leads.bind ((keeps_textoRpc request fecha).leads (Behind.settled_start op)) fun texto =>
    Leads.bind (Q := fun _ => Behind n 0 0) ?_ fun _ =>
    Leads.bind (leads_tested _ orUnlock rfl) fun _ => listed
  intro c behind
  simp only [EStateM.run, terminalRpc]
  cases env.terminalRpc with
  | true => exact behind
  | false => exact Behind.settled_start op c behind

theorem leads_contestar (env : Surroundings) (op : Operacion) (campos : List Bytes) (fecha : Bytes)
    (reply : Reply) :
    Leads (Behind n 0 0) (contestar env op (op.request campos) fecha reply)
      (fun _ => Settled op n) (Settled op n) := by
  cases op with
  | listUsers => exact leads_reply env _ fecha reply (leads_listarUsuarios env reply)
  | listContent => exact leads_reply env _ fecha reply (leads_listarContenido env reply)
  | register => exact leads_answered (fun _ => rfl) env _ fecha reply rfl
  | unregister => exact leads_answered (fun _ => rfl) env _ fecha reply rfl
  | connect => exact leads_answered (fun _ => rfl) env _ fecha reply rfl
  | publish => exact leads_answered (fun _ => rfl) env _ fecha reply rfl
  | delete => exact leads_answered (fun _ => rfl) env _ fecha reply rfl
  | disconnect => exact leads_answered (fun _ => rfl) env _ fecha reply rfl

/-- A case serves its one request and leaves no acknowledgement that was coming. -/
theorem leads_atender (env : Surroundings) (op : Operacion) (campos : List Bytes) (fecha : Bytes) :
    Leads (fun c => Behind n 0 0 c ∧ c.served = []) (atender env op (op.request campos) fecha)
      (fun _ c => Settled op n c ∧ c.served = [op.request campos])
      (fun c => Settled op n c ∧ c.served = [op.request campos]) := by
  have logged : StableRead fun c : Conn => c.served = [op.request campos] :=
    ⟨⟨fun same _ => same, fun _ _ same => same, fun same => same, fun _ same => same⟩,
      fun _ same => same⟩
  apply Leads.bind (Q := fun _ c => Behind n 0 0 c ∧ c.served = [op.request campos])
  · rintro c ⟨behind, fresh⟩
    rw [run_servir]
    cases (serve (op.request campos)).run c.sys with
    | ok reply s => exact ⟨behind, by rw [fresh]; rfl⟩
    | error why s => exact ⟨Behind.settled_start op c behind, by rw [fresh]; rfl⟩
  · rintro reply c ⟨behind, served⟩
    have settled := leads_contestar env op campos fecha reply c behind
    have kept := (keeps_contestar logged env op (op.request campos) fecha reply c served).1
    cases ran : (contestar env op (op.request campos) fecha reply).run c with
    | ok a c' =>
        rw [ran] at settled kept
        exact ⟨settled, kept⟩
    | error e c' =>
        rw [ran] at settled kept
        exact ⟨settled, kept⟩

end Whole

theorem handled_cuerpo (env : Surroundings) (start : Conn) :
    (handled env start).served = (stopped ((cuerpo env).run start)).served ∧
      (handled env start).sent = (stopped ((cuerpo env).run start)).sent ∧
      (handled env start).input = (stopped ((cuerpo env).run start)).input := by
  rw [handled, tratarMensaje, EStateM.run_bind]
  cases (cuerpo env).run start with
  | ok a c => exact ⟨rfl, rfl, rfl⟩
  | error e c => exact ⟨rfl, rfl, rfl⟩

theorem handled_settled {env : Surroundings} {s : Sys} {input : List ReadResult}
    {writes : List WriteResult} (op : Operacion) {campos : List Bytes} {fecha : Bytes} {n : Nat}
    (count : campos.length = op.attrs) (plain : ∀ campo ∈ campos ++ [fecha], Plain campo)
    (made : env.clntCreate = true) (steady : .failed ∉ writes)
    (delivers : Delivers input (wire (op.name :: campos ++ [fecha]) ++ acks n)) :
    (handled env (Conn.accepted s input writes)).served = [op.request campos] ∧
      Settled op n (handled env (Conn.accepted s input writes)) := by
  obtain ⟨left, last, body⟩ := @cuerpo_arrives s input writes op _ _ _ count plain delivers
  replace body := body env made
  have settled := (leads_atender (n := n) env op campos fecha).stopped
    (show Behind n 0 0 (Conn.reading s left writes) ∧ (Conn.reading s left writes).served = [] from
      ⟨⟨steady, le_refl 0, last⟩, rfl⟩)
  obtain ⟨served, sent, input⟩ := handled_cuerpo env (Conn.accepted s input writes)
  rw [body] at served sent input
  rw [served, Settled, sent, input]
  exact ⟨settled.2, settled.1⟩

end DistrApp.Server
