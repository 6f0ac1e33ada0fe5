import DistrApp.Server.Handler

/-!
# The request in the bytes a connection delivers

On delivered bytes every field is one line of them, and at the end of the
stream a field is empty.  `received` reads the request off the bytes, which the
handler serves unless one of its lines does not fit.
-/

set_option autoImplicit false

namespace DistrApp.Server

open Text Effects

def lineas : Nat → Bytes → List Bytes
  | 0, _ => []
  | n + 1, bytes => beforeEnd bytes :: lineas n (afterEnd bytes)

def resto : Nat → Bytes → Bytes
  | 0, bytes => bytes
  | n + 1, bytes => resto n (afterEnd bytes)

/-- The operation and its attributes in delivered bytes. -/
def received (bytes : Bytes) : Option Request :=
  (operacionOf (beforeEnd bytes)).map fun op => op.request (lineas op.attrs (afterEnd bytes))

theorem delivers_reads (bytes : Bytes) : Delivers (reads bytes) bytes :=
  ⟨by simp [reads], by simp [reads, byteOf, List.filterMap_map, Function.comp_def]⟩

section Reading
variable {c : Conn} {bytes : Bytes}

theorem readLine_cases (delivers : Delivers c.input bytes) :
    ∃ rest, Delivers rest (afterEnd bytes) ∧
      (readLine 1024 c.input = (.endOfFile, rest) ∧ bytes = [] ∨
        ∃ stored, readLine 1024 c.input = (.text stored, rest) ∧
          ((beforeEnd bytes).length < 256 → stored = beforeEnd bytes) ∧
          (256 ≤ (beforeEnd bytes).length → 256 ≤ stored.length)) := by
  obtain ⟨rest, later, ran⟩ := readLine_delivers (show 2 ≤ 1024 by decide) delivers
  refine ⟨rest, later, ?_⟩
  by_cases empty : bytes = []
  · exact Or.inl ⟨by rw [ran, if_pos empty], empty⟩
  · refine Or.inr ⟨(beforeEnd bytes).take 1023, by rw [ran, if_neg empty], ?_, ?_⟩
    · intro short
      exact List.take_of_length_le (by omega)
    · intro long
      rw [List.length_take]
      omega

theorem leerLinea_delivers {test : Bool → Handler Unit} {held : Bool → Bool}
    (returning : Returning test held) (delivers : Delivers c.input bytes) :
    ((beforeEnd bytes).length < 256 → ∃ rest, Delivers rest (afterEnd bytes) ∧
        (leerLinea test).run c = .ok (beforeEnd bytes) { c with input := rest }) ∧
      (256 ≤ (beforeEnd bytes).length → ∃ rest,
        (leerLinea test).run c = .error .overrun { c with input := rest }) := by
  obtain ⟨rest, later, ⟨ran, rfl⟩ | ⟨stored, ran, whole, cut⟩⟩ := readLine_cases delivers
  · refine ⟨fun _ => ⟨rest, later, ?_⟩, fun long => absurd long (by decide)⟩
    rw [run_leerLinea returning, ran]
    rfl
  · refine ⟨fun short => ⟨rest, later, ?_⟩, fun long => ⟨rest, ?_⟩⟩
    · rw [run_leerLinea returning, ran, whole short]
      exact if_pos short
    · rw [run_leerLinea returning, ran]
      exact if_neg (not_lt.mpr (cut long))

theorem leerOperacion_delivers (delivers : Delivers c.input bytes) :
    ((beforeEnd bytes).length < 256 → ∃ rest, Delivers rest (afterEnd bytes) ∧
        leerOperacion.run c = .ok (beforeEnd bytes) { c with input := rest }) ∧
      (256 ≤ (beforeEnd bytes).length → ∃ rest,
        leerOperacion.run c = .error .overrun { c with input := rest }) :=
  leerLinea_delivers returning_orUnlock delivers

theorem leerCampo_delivers (delivers : Delivers c.input bytes) :
    ((beforeEnd bytes).length < 256 → ∃ rest, Delivers rest (afterEnd bytes) ∧
        leerCampo.run c = .ok (beforeEnd bytes) { c with input := rest }) ∧
      (256 ≤ (beforeEnd bytes).length → ∃ rest,
        leerCampo.run c = .error .overrun { c with input := rest }) :=
  leerLinea_delivers returning_orReturn delivers

theorem leerCampos_delivers (n : Nat) :
    ∀ {c : Conn} {bytes : Bytes}, Delivers c.input bytes →
      ((∀ campo ∈ lineas n bytes, campo.length < 256) → ∃ rest, Delivers rest (resto n bytes) ∧
          (leerCampos n).run c = .ok (lineas n bytes) { c with input := rest }) ∧
        ((∃ campo ∈ lineas n bytes, 256 ≤ campo.length) → ∃ rest,
          (leerCampos n).run c = .error .overrun { c with input := rest }) := by
  induction n with
  | zero =>
      intro c bytes delivers
      exact ⟨fun _ => ⟨c.input, delivers, rfl⟩, fun ⟨_, member, _⟩ => by cases member⟩
  | succ n ih =>
      intro c bytes delivers
      obtain ⟨reads, overflows⟩ := leerCampo_delivers delivers
      constructor
      · intro short
        obtain ⟨rest, later, first⟩ := reads (short _ List.mem_cons_self)
        obtain ⟨last, ends, others⟩ := (@ih { c with input := rest } _ later).1
          fun campo member => short campo (List.mem_cons_of_mem _ member)
        refine ⟨last, ends, ?_⟩
        rw [leerCampos, EStateM.run_bind, first]
        simp only
        rw [EStateM.run_bind, others]
        rfl
      · rintro ⟨campo, member, long⟩
        by_cases head : 256 ≤ (beforeEnd bytes).length
        · obtain ⟨rest, first⟩ := overflows head
          exact ⟨rest, by rw [leerCampos, EStateM.run_bind, first]⟩
        · obtain ⟨rest, later, first⟩ := reads (not_le.mp head)
          have tail : campo ∈ lineas n (afterEnd bytes) := by
            rcases List.mem_cons.mp member with rfl | member
            · exact absurd long head
            · exact member
          obtain ⟨last, others⟩ := (@ih { c with input := rest } _ later).2 ⟨campo, tail, long⟩
          refine ⟨last, ?_⟩
          rw [leerCampos, EStateM.run_bind, first]
          simp only
          rw [EStateM.run_bind, others]

end Reading

/-! ## The whole request -/

theorem lineas_succ (n : Nat) (bytes : Bytes) :
    lineas (n + 1) bytes = lineas n bytes ++ [beforeEnd (resto n bytes)] := by
  induction n generalizing bytes with
  | zero => rfl
  | succ n ih =>
      rw [lineas, ih]
      rfl

theorem resto_succ (n : Nat) (bytes : Bytes) :
    resto (n + 1) bytes = afterEnd (resto n bytes) := by
  induction n generalizing bytes with
  | zero => rfl
  | succ n ih => exact ih (afterEnd bytes)

/-- The name that selects an operation. -/
def Operacion.name : Operacion → Bytes
  | register => ascii "REGISTER"
  | unregister => ascii "UNREGISTER"
  | connect => ascii "CONNECT"
  | publish => ascii "PUBLISH"
  | delete => ascii "DELETE"
  | listUsers => ascii "LIST_USERS"
  | listContent => ascii "LIST_CONTENT"
  | disconnect => ascii "DISCONNECT"

@[simp] theorem operacionOf_name (op : Operacion) : operacionOf op.name = some op := by
  cases op <;> decide

/-- A field that one line carries and the arrays hold. -/
def Plain (campo : Bytes) : Prop :=
  ((0 : UInt8) ∉ campo ∧ newline ∉ campo) ∧ campo.length < 256

instance : DecidablePred Plain := fun campo =>
  inferInstanceAs (Decidable (((0 : UInt8) ∉ campo ∧ newline ∉ campo) ∧ campo.length < 256))

theorem plain_name (op : Operacion) : Plain op.name := by
  cases op <;> decide

def wire (campos : List Bytes) : Bytes := campos.flatMap fun campo => campo ++ [0]

theorem lineas_clean {campos : List Bytes}
    (clean : ∀ campo ∈ campos, (0 : UInt8) ∉ campo ∧ newline ∉ campo) (rest : Bytes) :
    lineas campos.length (wire campos ++ rest) = campos ∧
      resto campos.length (wire campos ++ rest) = rest := by
  induction campos with
  | nil => exact ⟨rfl, rfl⟩
  | cons campo campos ih =>
      obtain ⟨others, after⟩ := ih fun c member => clean c (List.mem_cons_of_mem _ member)
      obtain ⟨first, tail⟩ := beforeEnd_field (clean campo List.mem_cons_self)
        (wire campos ++ rest)
      have shape : wire (campo :: campos) ++ rest = campo ++ 0 :: (wire campos ++ rest) := by
        simp [wire]
      rw [shape, List.length_cons, lineas, resto, first, tail, others, after]
      exact ⟨rfl, rfl⟩

theorem lineas_wire {campos : List Bytes} (plain : ∀ campo ∈ campos, Plain campo) (rest : Bytes) :
    lineas campos.length (wire campos ++ rest) = campos ∧
      resto campos.length (wire campos ++ rest) = rest :=
  lineas_clean (fun campo member => (plain campo member).1) rest

section Whole
variable {env : Surroundings} {s : Sys} {input : List ReadResult} {writes : List WriteResult}
  {bytes : Bytes}

def Conn.reading (s : Sys) (input : List ReadResult) (writes : List WriteResult) : Conn :=
  { Conn.accepted s input writes with mutexMensaje := true }

theorem cuerpo_run (env : Surroundings) (s : Sys) (input : List ReadResult)
    (writes : List WriteResult) :
    (cuerpo env).run (Conn.accepted s input writes) =
      (leerOperacion >>= fun operacion => orReturn env.clntCreate >>= fun _ =>
        caso env (operacionOf operacion)).run (Conn.reading s input writes) := rfl

theorem cuerpo_delivers (delivers : Delivers input bytes)
    (fits : (beforeEnd bytes).length < 256) :
    ∃ rest, Delivers rest (afterEnd bytes) ∧ ∀ env : Surroundings, env.clntCreate = true →
      (cuerpo env).run (Conn.accepted s input writes) =
        (caso env (operacionOf (beforeEnd bytes))).run (Conn.reading s rest writes) := by
  obtain ⟨rest, later, ran⟩ := (@leerOperacion_delivers (Conn.reading s input writes) _
    delivers).1 fits
  refine ⟨rest, later, fun env made => ?_⟩
  rw [cuerpo_run, EStateM.run_bind, ran]
  simp only [EStateM.run_bind, made, orReturn, if_true, EStateM.run_pure]
  rfl

/-- A request that fits the arrays is read whole before its case is served. -/
theorem caso_delivers (delivers : Delivers input bytes) (op : Operacion)
    (short : ∀ campo ∈ lineas (op.attrs + 1) bytes, campo.length < 256) :
    ∃ rest, Delivers rest (resto (op.attrs + 1) bytes) ∧ ∀ env : Surroundings,
      (caso env (some op)).run (Conn.reading s input writes) =
        (atender env op (op.request (lineas op.attrs bytes))
          (beforeEnd (resto op.attrs bytes))).run (Conn.reading s rest writes) := by
  rw [lineas_succ] at short
  obtain ⟨input₂, later₂, ran₂⟩ := (@leerCampos_delivers op.attrs (Conn.reading s input writes) _
    delivers).1 fun campo member => short campo (List.mem_append_left _ member)
  obtain ⟨input₃, later₃, ran₃⟩ := (@leerCampo_delivers (Conn.reading s input₂ writes) _
    later₂).1 (short _ (List.mem_append_right _ (List.mem_singleton_self _)))
  refine ⟨input₃, by rw [resto_succ]; exact later₃, fun env => ?_⟩
  rw [caso, EStateM.run_bind, ran₂]
  simp only
  rw [EStateM.run_bind,
    show leerCampo.run { Conn.reading s input writes with input := input₂ } = _ from ran₃]
  rfl

theorem cuerpo_arrives (op : Operacion) {campos : List Bytes} {fecha more : Bytes}
    (count : campos.length = op.attrs) (plain : ∀ campo ∈ campos ++ [fecha], Plain campo)
    (delivers : Delivers input (wire (op.name :: campos ++ [fecha]) ++ more)) :
    ∃ left, Delivers left more ∧ ∀ env : Surroundings, env.clntCreate = true →
      (cuerpo env).run (Conn.accepted s input writes) =
        (atender env op (op.request campos) fecha).run (Conn.reading s left writes) := by
  have shape : wire (op.name :: campos ++ [fecha]) ++ more =
      op.name ++ 0 :: (wire (campos ++ [fecha]) ++ more) := by
    simp [wire]
  obtain ⟨first, tail⟩ := beforeEnd_field (plain_name op).1 (wire (campos ++ [fecha]) ++ more)
  obtain ⟨fields, after⟩ := lineas_wire plain more
  rw [List.length_append, List.length_singleton, count] at fields after
  rw [shape] at delivers
  obtain ⟨rest, later, body⟩ := @cuerpo_delivers s input writes _ delivers
    (by rw [first]; exact (plain_name op).2)
  rw [tail] at later
  obtain ⟨left, last, ran⟩ := @caso_delivers s rest writes _ later op
    (by rw [fields]; exact fun campo member => (plain campo member).2)
  rw [after] at last
  rw [lineas_succ] at fields
  obtain ⟨early, date⟩ := List.append_inj' fields rfl
  refine ⟨left, last, fun env made => ?_⟩
  rw [body env made, first, operacionOf_name, ran env, early, (List.cons.inj date).1]

theorem caso_overflows (delivers : Delivers input bytes) (op : Operacion)
    (long : ∃ campo ∈ lineas (op.attrs + 1) bytes, 256 ≤ campo.length) :
    ∃ c, (caso env (some op)).run (Conn.reading s input writes) =
      .error .overrun c := by
  have reads := @leerCampos_delivers op.attrs (Conn.reading s input writes) _ delivers
  rw [caso, EStateM.run_bind]
  by_cases inside : ∃ campo ∈ lineas op.attrs bytes, 256 ≤ campo.length
  · obtain ⟨rest, ran₂⟩ := reads.2 inside
    rw [ran₂]
    exact ⟨_, rfl⟩
  · push Not at inside
    obtain ⟨input₂, later₂, ran₂⟩ := reads.1 inside
    obtain ⟨campo, member, long⟩ := long
    rw [lineas_succ] at member
    have last : 256 ≤ (beforeEnd (resto op.attrs bytes)).length := by
      rcases List.mem_append.mp member with early | last
      · exact absurd long (not_le.mpr (inside campo early))
      · rw [List.mem_singleton.mp last] at long
        exact long
    obtain ⟨rest, ran₃⟩ := (@leerCampo_delivers (Conn.reading s input₂ writes) _ later₂).2 last
    rw [ran₂]
    simp only
    rw [EStateM.run_bind,
      show leerCampo.run { Conn.reading s input writes with input := input₂ } = _ from ran₃]
    exact ⟨_, rfl⟩

end Whole

end DistrApp.Server
