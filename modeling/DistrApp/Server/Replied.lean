import DistrApp.Server.Fields
import DistrApp.Server.Halfway
import DistrApp.Server.Distinct

/-!
# One client at a time

What the server sends back on a connection, and what each of the four
operations of a session does to a table with one entry or none, when no call
fails.
-/

set_option autoImplicit false

namespace DistrApp.Server

open Text FileTree Effects

/-- What a handler sends on a connection that delivers these bytes, and the tree
it leaves; nothing where C defines nothing more. -/
def replied (t : FileTree) (bytes : Bytes) : Option (Bytes × FileTree) :=
  match (tratarMensaje answering).run (Conn.accepted ⟨t, [], []⟩ (reads bytes) []) with
  | .ok _ c => some (c.sent.flatten, c.sys.tree)
  | .error _ _ => none

theorem received_command (op : Operacion) (rest : Bytes) :
    received (wire [op.name] ++ rest) = some (op.request (lineas op.attrs rest)) := by
  have shape : wire [op.name] ++ rest = op.name ++ 0 :: rest := by simp [wire]
  obtain ⟨first, later⟩ := beforeEnd_field (plain_name op).1 rest
  rw [received, shape, first, later, operacionOf_name]
  rfl

section Replied
variable {t t' : FileTree} {bytes respuesta : Bytes}

/-- An operation without a listing answers by its result alone. -/
theorem replied_of_received {request : Request} (asked : received bytes = some request)
    (plain : ∀ fecha, textoRpc request fecha = pure fecha)
    (last : ∀ reply, listar answering request reply = pure ())
    (answers : replied t bytes = some (respuesta, t')) :
    ∃ reply s', (serve request).run ⟨t, [], []⟩ = .ok reply s' ∧
      respuesta = reply.res ++ [0] ∧ s'.tree = t' := by
  obtain ⟨op, named, rfl⟩ := Option.map_eq_some_iff.mp asked
  have delivers := delivers_reads bytes
  rw [replied] at answers
  split at answers
  · rename_i u c ran
    cases answers
    obtain ⟨_, c₁, body, ends⟩ := bind_ok.mp ran
    cases ends
    by_cases fits : (beforeEnd bytes).length < 256
    · obtain ⟨rest, later, goes⟩ := @cuerpo_delivers ⟨t, [], []⟩ _ [] _ delivers fits
      rw [goes answering rfl, named] at body
      by_cases long : ∃ campo ∈ lineas (op.attrs + 1) (afterEnd bytes), 256 ≤ campo.length
      · obtain ⟨_, overruns⟩ := @caso_overflows answering ⟨t, [], []⟩ rest [] _ later op long
        rw [overruns] at body
        cases body
      · push Not at long
        obtain ⟨input, ends, served⟩ := @caso_delivers ⟨t, [], []⟩ rest [] _ later op long
        rw [served] at body
        obtain ⟨reply, middle, first, second⟩ := bind_ok.mp body
        obtain ⟨s', ran', rfl⟩ := servir_ok first
        obtain ⟨c₂, _, same, sent, goesOn⟩ := @Calm.on_contestar s'.tree s'.faults _
          { Conn.reading ⟨t, [], []⟩ input [] with
            sys := s', served := [op.request (lineas op.attrs (afterEnd bytes))] }
          ⟨rfl, rfl, rfl, ends⟩ op _ _ reply (plain _)
        have answered := second.symm.trans (goesOn answering rfl)
        rw [last] at answered
        cases answered
        refine ⟨reply, s', ran', ?_, ?_⟩
        · show c₁.sent.flatten = _
          rw [sent]
          exact List.append_nil _
        · show s'.tree = c₁.sys.tree
          rw [same]
    · obtain ⟨rest, overruns⟩ := (@leerOperacion_delivers (Conn.reading ⟨t, [], []⟩ (reads bytes) [])
        _ delivers).2 (not_lt.mp fits)
      rw [cuerpo_run, EStateM.run_bind, overruns] at body
      cases body
  · cases answers

end Replied

/-! ## A table with one entry or none -/

section Alone
variable {t t' : FileTree} {username res : Bytes}

theorem connectedEntries_eq_nil : connectedEntries t = [] ↔ (table t).getD [] = [] := by
  constructor
  · intro empty
    rw [← lines_flatten ((table t).getD []), show lines _ = [] from empty, List.flatten_nil]
  · intro empty
    rw [connectedEntries, empty, lines_nil]

theorem table_of_entry {line : Bytes} (one : connectedEntries t = [line]) : table t = some line := by
  have joined : (table t).getD [] = line := by
    rw [← lines_flatten ((table t).getD []), show lines _ = [line] from one, List.flatten_singleton]
  cases here : table t with
  | some text =>
      rw [here] at joined
      rw [← joined, Option.getD_some]
  | none =>
      rw [connectedEntries, here] at one
      cases one

theorem register_alone (outcome : Outcome t (.register username) res t') :
    Grows t t' ∧ connectedEntries t' = connectedEntries t := by
  cases outcome with
  | unchanged => exact ⟨Grows.refl t, rfl⟩
  | registered made =>
      obtain ⟨p, _, absent, dir, only⟩ := mkdir_some made
      refine ⟨only.grows fun n here => ?_, ?_⟩
      · rw [absent] at here
        cases here
      · by_cases here : tablePath t = p
        · rw [← here] at dir absent
          rw [connectedEntries, connectedEntries, table_of_node_dir only.cwd dir,
            table_of_node_none rfl absent]
        · exact connectedEntries_of_table (table_of_node_eq only.cwd (only.others _ here))

theorem connect_alone {freePort freeServer : Bytes} {reply : Reply} {s' : Sys}
    (empty : connectedEntries t = [])
    (ran : (serve (.connect username freePort freeServer)).run ⟨t, [], []⟩ = .ok reply s') :
    (reply.res = ascii "0" ∧ t.access (folderOf username) = true ∧
        s'.tree.access (folderOf username) = true ∧
        table s'.tree = some (tableEntry username freeServer freePort)) ∨
      (reply.res = ascii "1" ∨ reply.res = ascii "2") ∧ connectedEntries s'.tree = [] := by
  have bare := connectedEntries_eq_nil.mp empty
  have opens : ∀ {file : Path} {text : Bytes} {t₁ : FileTree},
      t.openAppend conectadosTxt = some (file, text, t₁) → text = [] := by
    intro file text t₁ opened
    obtain ⟨_, _, _, _, here | ⟨_, nothing⟩⟩ := openAppend_table opened
    · rwa [here] at bare
    · exact nothing
  rcases connectServ_ok (answer_ok ran) with ⟨one, same⟩ | ⟨registered, file, text, t₁, opened,
    ⟨two, same⟩ | ⟨zero, free, same⟩⟩
  · rw [same]
    exact Or.inr ⟨Or.inl one, empty⟩
  · obtain rfl := opens opened
    obtain ⟨_, _, now, only, _⟩ := openAppend_table opened
    refine Or.inr ⟨Or.inr two, ?_⟩
    rw [same, connectedEntries, table_of_node_file only.cwd now]
    rfl
  · obtain rfl := opens opened
    obtain ⟨_, _, _, before⟩ := openAppend_some opened
    obtain ⟨_, rfl, now, only, _⟩ := openAppend_table opened
    have last := only.trans (append_changesOnly _ _ (tableEntry username freeServer freePort))
    have written := node_append now (tableEntry username freeServer freePort)
    rw [List.nil_append] at written
    rw [same]
    refine Or.inl ⟨zero, registered, (last.grows fun n here => ⟨_, written, ?_⟩).access registered,
      table_of_node_file last.cwd written⟩
    rcases before with file | ⟨absent, _⟩
    · rw [file] at here
      cases here
      simp
    · rw [absent] at here
      cases here

theorem unregister_alone (empty : connectedEntries t = [])
    (outcome : Outcome t (.unregister username) res t') : connectedEntries t' = [] := by
  rw [connectedEntries_eq_nil] at empty ⊢
  rcases outcome_table outcome with same | gone | ⟨_, _, _, _, request, _⟩ | ⟨_, _, request, _⟩
  · rw [same, empty]
  · rw [gone, Option.getD_none]
  · cases request
  · cases request

theorem disconnect_alone {reply : Reply} {s' : Sys} {text : Bytes}
    (ran : (serve (.disconnect username)).run ⟨t, [], []⟩ = .ok reply s')
    (registered : t.access (folderOf username) = true) (here : table t = some text)
    (clean : (0 : UInt8) ∉ text) (one : pieces 256 text = [text]) (named : username <:+: text) :
    reply.res = ascii "0" ∧ connectedEntries s'.tree = [] := by
  have served := answer_ok ran
  have rooted := rooted_of_access registered
  have update : t.openUpdate conectadosTxt = some (tablePath t, text) :=
    openUpdate_table.mpr ⟨rooted, rfl, here⟩
  have short : username.length < 244 := by
    by_contra long
    obtain ⟨_, failed⟩ := run_disconnectServ_long (s := ⟨t, [], []⟩) rfl (not_lt.mp long)
    rw [failed] at served
    cases served
  cases created : t.openWrite tempTxt with
  | none =>
      obtain ⟨_, failed⟩ := run_disconnectServ_noTemp (s := ⟨t, [], []⟩) rfl short registered update
        created
      rw [failed] at served
      cases served
  | some opened =>
      obtain ⟨t₁, handles, ran', swapped⟩ := run_disconnectServ (s := ⟨t, [], []⟩) rfl short
        (access_withTemp registered) update created
      rw [ran'] at served
      have dropped : kept username text = [] := by
        rw [kept_of_clean clean, one, List.filter_cons_of_neg (by simpa using named)]
        rfl
      have found : matchesSome username text = true :=
        (matchesSome_of_clean clean).mpr ⟨text, by rw [one]; exact List.mem_singleton_self _, named⟩
      rw [found] at served
      have answered : ascii "0" = reply.res ∧
          (⟨t₁, [], handles⟩ : Sys) = s' := by
        injection served with first second
        exact ⟨first, second⟩
      refine ⟨answered.1.symm, ?_⟩
      rw [← answered.2, connectedEntries, table_of_node_file swapped.cwd swapped.tableKept, dropped]
      rfl

end Alone

end DistrApp.Server
