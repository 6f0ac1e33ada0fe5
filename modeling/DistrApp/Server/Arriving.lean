import DistrApp.Server.Decoding

/-!
# The request on a stream that may break off

A read can fail anywhere in the stream.  `arrived` is what comes in before that.
However it comes, what the handler stores of it is line by line the same, and
the one request that it can serve is the one that these bytes spell.
-/

set_option autoImplicit false

namespace DistrApp.Server

open Text FileTree Effects

/-- The bytes that come in before a read fails, if one does. -/
def arrived (input : List ReadResult) : Bytes :=
  (input.takeWhile fun result => result ≠ .failed).filterMap byteOf

/-- The operation, its attributes and the timestamp after them, line by line. -/
structure Spells (bytes : Bytes) (op : Operacion) (campos : List Bytes) (fecha : Bytes) : Prop where
  operacion : operacionOf (beforeEnd bytes) = some op
  campos : campos = lineas op.attrs (afterEnd bytes)
  fecha : fecha = beforeEnd (resto op.attrs (afterEnd bytes))

/-- Every line that the handler reads before its `*_serv` call fits an array of
256 bytes. -/
def LinesFit (bytes : Bytes) : Prop :=
  (beforeEnd bytes).length < 256 ∧ ∀ op, operacionOf (beforeEnd bytes) = some op →
    ∀ campo ∈ lineas (op.attrs + 1) (afterEnd bytes), campo.length < 256

/-! ## One line -/

section Arriving
variable {input : List ReadResult}

theorem arrived_byte (ch : UInt8) : arrived (.byte ch :: input) = ch :: arrived input := rfl

theorem arrived_of_delivers {bytes : Bytes} (delivers : Delivers input bytes) :
    arrived input = bytes := by
  rw [arrived, List.takeWhile_eq_self_iff.mpr]
  · exact delivers.2
  · intro result member
    have steady : result ≠ .failed := fun failed => delivers.1 (failed ▸ member)
    simpa using steady

theorem readLoop_arrived {n : Nat} (roomy : 2 ≤ n) :
    ∀ {input : List ReadResult} {stored : Bytes}, stored.length ≤ n - 1 →
      match readLoop n stored input with
      | (.failed kept, _) => kept = (stored ++ beforeEnd (arrived input)).take (n - 1)
      | (.endOfFile, rest) => stored = [] ∧ arrived input = [] ∧ arrived rest = []
      | (.text kept, rest) =>
          kept = (stored ++ beforeEnd (arrived input)).take (n - 1) ∧
            arrived rest = afterEnd (arrived input) := by
  intro input
  induction input with
  | nil =>
      intro stored short
      by_cases empty : stored = []
      · simp [readLoop, empty, arrived]
      · simp [readLoop, empty, arrived, beforeEnd, afterEnd, List.take_of_length_le short]
  | cons result input ih =>
      intro stored short
      cases result with
      | failed => simp [readLoop, arrived, beforeEnd, List.take_of_length_le short]
      | interrupted => exact ih short
      | byte ch =>
          rw [arrived_byte, beforeEnd_cons, afterEnd_cons]
          by_cases ends : endsLine ch = true
          · simp [readLoop, endsLine_iff.mp ends, ends, List.take_of_length_le short]
          · have goesOn : ¬ (ch = newline ∨ ch = 0) := fun stop => ends (endsLine_iff.mpr stop)
            rw [if_neg ends, if_neg ends]
            by_cases room : stored.length < n - 1
            · have later := @ih (stored ++ [ch]) (by simpa using room)
              rw [List.append_assoc, List.singleton_append] at later
              simp only [readLoop, goesOn, room, if_false, if_true]
              rcases ran : readLoop n (stored ++ [ch]) input with ⟨kept | _ | kept, rest⟩ <;>
                rw [ran] at later
              · exact later
              · exact absurd later.1 (by simp)
              · exact later
            · have later := @ih stored short
              have full : stored.length = n - 1 := by omega
              have nonempty : stored ≠ [] := by
                rintro rfl
                simp only [List.length_nil] at full
                omega
              have cut : ∀ more : Bytes, (stored ++ more).take (n - 1) = stored := by
                intro more
                rw [← full, List.take_left]
              rw [cut] at later ⊢
              simp only [readLoop, goesOn, room, if_false]
              rcases ran : readLoop n stored input with ⟨kept | _ | kept, rest⟩ <;>
                rw [ran] at later
              · exact later
              · exact absurd later.1 nonempty
              · exact later

theorem readLine_arrived (fits : (beforeEnd (arrived input)).length < 256) :
    match readLine 1024 input with
      | (.failed kept, _) => kept.length ≤ 256
      | (.endOfFile, rest) => arrived input = [] ∧ arrived rest = []
      | (.text kept, rest) => kept = beforeEnd (arrived input) ∧
          arrived rest = afterEnd (arrived input) := by
  have ran := @readLoop_arrived 1024 (by decide) input [] (by simp)
  rw [List.nil_append, List.take_of_length_le (by omega)] at ran
  rw [readLine]
  generalize readLoop 1024 [] input = result at ran ⊢
  obtain ⟨kept | _ | kept, rest⟩ := result
  · have same : kept = _ := ran
    rw [same]
    exact Nat.le_of_lt fits
  · exact ran.2
  · exact ran

theorem readLine_line (input : List ReadResult) :
    match readLine 1024 input with
    | (.failed stored, _) => 256 < stored.length → 256 ≤ (beforeEnd (arrived input)).length
    | (.endOfFile, rest) => arrived input = [] ∧ arrived rest = []
    | (.text stored, rest) =>
        (256 ≤ stored.length → 256 ≤ (beforeEnd (arrived input)).length) ∧
          (stored.length < 256 →
            stored = beforeEnd (arrived input) ∧ arrived rest = afterEnd (arrived input)) := by
  have ran := @readLoop_arrived 1024 (by decide) input [] (by simp)
  rw [List.nil_append] at ran
  rw [readLine]
  generalize readLoop 1024 [] input = result at ran ⊢
  obtain ⟨stored | _ | stored, rest⟩ := result
  · have cut : stored = (beforeEnd (arrived input)).take 1023 := ran
    intro long
    rw [cut, List.length_take] at long
    omega
  · exact ran.2
  · obtain ⟨cut, after⟩ := ran
    have length := congrArg List.length cut
    rw [List.length_take] at length
    refine ⟨fun long => by omega, fun short => ?_⟩
    exact ⟨cut.trans (List.take_of_length_le (by omega)), after⟩

end Arriving

/-! ## The reads of the handler -/

section Reading
variable {s : Sys} {writes : List WriteResult}

structure Unserved (s : Sys) (writes : List WriteResult) (c : Conn) : Prop where
  sys : c.sys = s
  writes : c.writes = writes
  served : c.served = []
  recorded : c.recorded = []
  sent : c.sent = []

structure Unread (s : Sys) (writes : List WriteResult) (bytes : Bytes) (c : Conn) : Prop extends
    Unserved s writes c where
  left : arrived c.input = bytes

/-- Where a read fails in it, the line is not stored; and only a line of 256 bytes
or more overruns its array. -/
theorem spells_leerLinea {test : Bool → Handler Unit} {held : Bool → Bool} {left : Bytes}
    (returning : Returning test held) :
    Meets (Unread s writes left) (leerLinea test)
      (fun linea c => (linea = beforeEnd left ∧ linea.length < 256) ∧
        Unread s writes (afterEnd left) c)
      fun e c => Unserved s writes c ∧
        (e = .returned ∨ e = .overrun ∧ 256 ≤ (beforeEnd left).length) := by
  rintro c ⟨unserved, rfl⟩
  have moved : ∀ rest held, Unserved s writes { c with input := rest, mutexMensaje := held } :=
    fun _ _ => ⟨unserved.sys, unserved.writes, unserved.served, unserved.recorded, unserved.sent⟩
  have line := readLine_line c.input
  rw [run_leerLinea returning]
  generalize readLine 1024 c.input = result at line ⊢
  obtain ⟨stored | _ | stored, rest⟩ := result
  · by_cases fits : stored.length ≤ 256
    · simp only [if_pos fits]
      exact ⟨moved rest _, Or.inl trivial⟩
    · simp only [if_neg fits]
      exact ⟨moved rest c.mutexMensaje, Or.inr ⟨trivial, by omega⟩⟩
  · rw [line.1]
    exact ⟨⟨rfl, by decide⟩, moved rest c.mutexMensaje, line.2⟩
  · by_cases short : stored.length < 256
    · obtain ⟨whole, after⟩ := line.2 short
      simp only [if_pos short]
      exact ⟨⟨whole, short⟩, moved rest c.mutexMensaje, after⟩
    · simp only [if_neg short]
      exact ⟨moved rest c.mutexMensaje, Or.inr ⟨trivial, by omega⟩⟩

theorem spells_leerCampo {left : Bytes} : Meets (Unread s writes left) leerCampo
    (fun campo c => (campo = beforeEnd left ∧ campo.length < 256) ∧
      Unread s writes (afterEnd left) c)
    fun e c => Unserved s writes c ∧
      (e = .returned ∨ e = .overrun ∧ 256 ≤ (beforeEnd left).length) :=
  spells_leerLinea returning_orReturn

theorem spells_leerCampos (n : Nat) :
    ∀ left : Bytes, Meets (Unread s writes left) (leerCampos n)
      (fun campos c => (campos = lineas n left ∧ ∀ campo ∈ campos, campo.length < 256) ∧
        Unread s writes (resto n left) c)
      fun e c => Unserved s writes c ∧
        (e = .returned ∨ e = .overrun ∧ ∃ campo ∈ lineas n left, 256 ≤ campo.length) := by
  induction n with
  | zero => exact fun left => Meets.pure fun c unread => ⟨⟨rfl, by simp⟩, unread⟩
  | succ n ih =>
      intro left
      refine Meets.bind (spells_leerCampo.consequence (fun _ here => here) (fun _ _ here => here)
        fun e c stops => ⟨stops.1, stops.2.imp_right fun long =>
          ⟨long.1, _, List.mem_cons_self, long.2⟩⟩) fun campo => ?_
      rintro c ⟨⟨rfl, short⟩, unread⟩
      refine Meets.bind ((ih (afterEnd left)).consequence (fun _ here => here)
        (fun _ _ here => here) fun e c stops => ⟨stops.1, stops.2.imp_right ?_⟩)
        (fun campos => ?_) c unread
      · refine Meets.pure ?_
        rintro c' ⟨⟨rfl, others⟩, after⟩
        exact ⟨⟨rfl, List.forall_mem_cons.mpr ⟨short, others⟩⟩, after⟩
      · rintro ⟨overrun, campo, member, long⟩
        exact ⟨overrun, campo, List.mem_cons_of_mem _ member, long⟩

/-- What holds of the handler where it stops reading and after the request that
the bytes spell, holds of it where it stops. -/
theorem spells_cuerpo {env : Surroundings} {bytes : Bytes} {Q : Conn → Prop}
    {E : Stop → Conn → Prop} (early : ∀ c, Unserved s writes c → Q c ∧ E .returned c)
    (overrun : ¬ LinesFit bytes → ∀ c, Unserved s writes c → E .overrun c)
    (attended : ∀ {op campos fecha}, Spells bytes op campos fecha →
      Meets (Unread s writes (resto (op.attrs + 1) (afterEnd bytes)))
        (atender env op (op.request campos) fecha) (fun _ => Q) E) :
    Meets (Unread s writes bytes) (cuerpo env) (fun _ => Q) E := by
  have locked : Meets (Unread s writes bytes) lock (fun _ => Unread s writes bytes) E :=
    fun _ unread =>
      ⟨⟨unread.sys, unread.writes, unread.served, unread.recorded, unread.sent⟩, unread.left⟩
  refine Meets.bind locked fun _ => Meets.bind
    ((spells_leerLinea returning_orUnlock).consequence (fun _ here => here) (fun _ _ here => here)
      ?_) fun operacion => ?_
  · rintro e c ⟨unserved, rfl | ⟨rfl, long⟩⟩
    · exact (early c unserved).2
    · exact overrun (fun fit => absurd fit.1 (not_lt.mpr long)) c unserved
  rintro c₀ ⟨⟨rfl, -⟩, unread₀⟩
  refine Meets.bind (Q := fun _ => Unread s writes (afterEnd bytes))
    (Meets.ite (fun _ => Meets.pure fun _ unread => unread)
      fun _ => Meets.throw fun c unread => (early c unread.toUnserved).2) (fun _ => ?_) c₀ unread₀
  cases named : operacionOf (beforeEnd bytes) with
  | none => exact Meets.pure fun c unread => (early c unread.toUnserved).1
  | some op =>
      have stops : ∀ e c, (Unserved s writes c ∧ (e = .returned ∨
          e = .overrun ∧ ∃ campo ∈ lineas (op.attrs + 1) (afterEnd bytes), 256 ≤ campo.length)) →
          E e c := by
        rintro e c ⟨unserved, rfl | ⟨rfl, campo, member, long⟩⟩
        · exact (early c unserved).2
        · exact overrun (fun fit => absurd (fit.2 op named campo member) (not_lt.mpr long)) c unserved
      rw [lineas_succ] at stops
      refine Meets.bind ((spells_leerCampos _ _).consequence (fun _ here => here)
        (fun _ _ here => here) fun e c early => stops e c ⟨early.1, early.2.imp_right ?_⟩)
        fun campos => ?_
      · rintro ⟨overruns, campo, member, long⟩
        exact ⟨overruns, campo, List.mem_append_left _ member, long⟩
      rintro c₁ ⟨⟨rfl, -⟩, unread₁⟩
      refine Meets.bind (spells_leerCampo.consequence (fun _ here => here)
        (fun _ _ here => here) fun e c early => stops e c ⟨early.1, early.2.imp_right ?_⟩)
        (fun fecha => ?_) c₁ unread₁
      · rintro ⟨overruns, long⟩
        exact ⟨overruns, _, List.mem_append_right _ (List.mem_singleton_self _), long⟩
      rintro c₂ ⟨⟨rfl, -⟩, unread₂⟩
      rw [← resto_succ] at unread₂
      exact attended ⟨named, rfl, rfl⟩ c₂ unread₂

end Reading

/-! ## What is served -/

section Serving
variable {env : Surroundings}

/-- A line that does not fit overruns its array where nothing fails. -/
theorem cuerpo_overruns {bytes : Bytes} (long : ¬ LinesFit bytes) (s : Sys) :
    ∃ c, (cuerpo answering).run (Conn.accepted s (reads bytes) []) = .error .overrun c := by
  have delivers : Delivers (reads bytes) bytes := delivers_reads bytes
  by_cases first : (beforeEnd bytes).length < 256
  · rw [LinesFit, not_and] at long
    have later := long first
    push Not at later
    obtain ⟨op, named, field⟩ := later
    obtain ⟨rest, left, ran⟩ := @cuerpo_delivers s (reads bytes) [] _ delivers first
    obtain ⟨c, overruns⟩ := @caso_overflows answering s rest [] _ left op field
    exact ⟨c, by rw [ran answering rfl, named, overruns]⟩
  · obtain ⟨rest, ran⟩ := (@leerOperacion_delivers (Conn.reading s (reads bytes) []) _ delivers).2
      (not_lt.mp first)
    exact ⟨_, by rw [cuerpo_run, EStateM.run_bind, ran]⟩

/-- And where every line fits the request is served. -/
theorem cuerpo_attends {bytes : Bytes} {op : Operacion} (fit : LinesFit bytes)
    (named : operacionOf (beforeEnd bytes) = some op) (s : Sys) :
    ∃ rest, Delivers rest (resto (op.attrs + 1) (afterEnd bytes)) ∧
      ∀ env : Surroundings, env.clntCreate = true →
        (cuerpo env).run (Conn.accepted s (reads bytes) []) =
          (atender env op (op.request (lineas op.attrs (afterEnd bytes)))
            (beforeEnd (resto op.attrs (afterEnd bytes)))).run (Conn.reading s rest []) := by
  obtain ⟨rest, later, ran⟩ := @cuerpo_delivers s (reads bytes) [] _ (delivers_reads bytes) fit.1
  obtain ⟨last, ends, served⟩ := @caso_delivers s rest [] _ later op (fit.2 op named)
  exact ⟨last, ends, fun env made => by rw [ran env made, named, served env]⟩

theorem handled_served (env : Surroundings) (start : Conn) :
    (handled env start).served = (stopped ((cuerpo env).run start)).served := by
  rw [handled, tratarMensaje, EStateM.run_bind]
  cases (cuerpo env).run start <;> rfl

/-- Whatever comes after the `*_serv` call, nothing else is served. -/
theorem atender_served (op : Operacion) (request : Request) (fecha : Bytes) (c : Conn) :
    (stopped ((atender env op request fecha).run c)).served = c.served ++ [request] := by
  rw [atender, EStateM.run_bind, run_servir]
  cases (serve request).run c.sys with
  | error why s' => rfl
  | ok reply s' =>
      have stable : StableRead fun c' : Conn => c'.served = c.served ++ [request] :=
        ⟨⟨fun same _ => same, fun _ _ same => same, fun same => same, fun _ same => same⟩,
          fun _ same => same⟩
      exact (keeps_contestar stable env op request fecha reply _ rfl).1

theorem served_spelled {s : Sys} {input : List ReadResult} {writes : List WriteResult}
    {request : Request}
    (member : request ∈ (handled env (Conn.accepted s input writes)).served) :
    ∃ op campos fecha, Spells (arrived input) op campos fecha ∧ request = op.request campos := by
  have body : Leads (Unread s writes (arrived input)) (cuerpo env)
      (fun _ c => ∀ request ∈ c.served, ∃ op campos fecha,
        Spells (arrived input) op campos fecha ∧ request = op.request campos)
      fun c => ∀ request ∈ c.served, ∃ op campos fecha,
        Spells (arrived input) op campos fecha ∧ request = op.request campos := by
    have nothing : ∀ c, Unserved s writes c → ∀ request ∈ c.served, ∃ op campos fecha,
        Spells (arrived input) op campos fecha ∧ request = op.request campos := by
      intro c unserved
      rw [unserved.served]
      simp
    refine spells_cuerpo (fun c unserved => ⟨nothing c unserved, nothing c unserved⟩)
      (fun _ c unserved => nothing c unserved) ?_
    · intro op campos fecha spells
      refine Meets.of_stopped fun c unread request member => ?_
      rw [atender_served, unread.served, List.nil_append, List.mem_singleton] at member
      exact ⟨op, campos, fecha, spells, member⟩
  rw [handled_served] at member
  exact body.stopped (s := Conn.accepted s input writes) ⟨⟨rfl, rfl, rfl, rfl, rfl⟩, rfl⟩ request member

theorem Spells.received {bytes : Bytes} {op : Operacion} {campos : List Bytes} {fecha : Bytes}
    (spells : Spells bytes op campos fecha) : received bytes = some (op.request campos) := by
  rw [Server.received, spells.operacion, Option.map_some, spells.campos]

theorem stopped_atender (op : Operacion) (request : Request) (fecha : Bytes) (c : Conn) :
    (stopped ((atender env op request fecha).run c)).sys.tree =
      (stopped ((serve request).run c.sys)).tree := by
  rw [atender, EStateM.run_bind, run_servir]
  cases (serve request).run c.sys with
  | error why s' => rfl
  | ok reply s' =>
      have stable : StableRead fun c : Conn => c.sys.tree = s'.tree :=
        ⟨⟨fun same left => left.trans same, fun _ _ same => same, fun same => same,
          fun _ same => same⟩, fun _ same => same⟩
      exact (keeps_contestar stable env op request fecha reply _ rfl).1

theorem handled_sys (env : Surroundings) (start : Conn) :
    (handled env start).sys = (stopped ((cuerpo env).run start)).sys := by
  rw [handled, tratarMensaje, EStateM.run_bind]
  cases (cuerpo env).run start <;> rfl

/-- The tree is as it was, or as the request leaves it which these bytes spell. -/
def LeavesTree (s : Sys) (bytes : Bytes) (c : Conn) : Prop :=
  c.sys.tree = s.tree ∨ ∃ request, received bytes = some request ∧
    c.sys.tree = (stopped ((serve request).run s)).tree

theorem handled_tree (env : Surroundings) (s : Sys) (input : List ReadResult)
    (writes : List WriteResult) :
    LeavesTree s (arrived input) (handled env (Conn.accepted s input writes)) := by
  have body : Leads (Unread s writes (arrived input)) (cuerpo env)
      (fun _ => LeavesTree s (arrived input)) (LeavesTree s (arrived input)) := by
    have nothing : ∀ c, Unserved s writes c → LeavesTree s (arrived input) c :=
      fun c unserved => Or.inl (congrArg Sys.tree unserved.sys)
    refine spells_cuerpo (fun c unserved => ⟨nothing c unserved, nothing c unserved⟩)
      (fun _ c unserved => nothing c unserved) ?_
    intro op campos fecha spells
    refine Meets.of_stopped fun c unread => Or.inr ⟨_, spells.received, ?_⟩
    rw [stopped_atender, unread.sys]
  rw [LeavesTree, handled_sys]
  exact body.stopped (s := Conn.accepted s input writes) ⟨⟨rfl, rfl, rfl, rfl, rfl⟩, rfl⟩

theorem handled_received {s : Sys} {bytes : Bytes} {op : Operacion} (fit : LinesFit bytes)
    (named : operacionOf (beforeEnd bytes) = some op) :
    (handled answering (Conn.accepted s (reads bytes) [])).sys.tree =
      (stopped ((serve (op.request (lineas op.attrs (afterEnd bytes)))).run s)).tree := by
  obtain ⟨rest, -, ran⟩ := cuerpo_attends fit named s
  rw [handled_sys, ran answering rfl, stopped_atender]
  rfl

end Serving

end DistrApp.Server
