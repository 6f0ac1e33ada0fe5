import DistrApp.Server.Announced
import DistrApp.Server.Frame
import DistrApp.Server.Publish
import DistrApp.Server.Release
import DistrApp.Server.Logged

/-!
# The description of a published file

A regular file of a user's folder stays as it is until a DELETE of it or an
UNREGISTER of the folder, and LIST_CONTENT reads the description of PUBLISH back
from it.
-/

set_option autoImplicit false

namespace DistrApp.Server

open Text FileTree Effects

/-! ## The file -/

section File
variable {t t' : FileTree} {request : Request} {res : Bytes} {p : Path} {name : Name}
  {content : Bytes}

theorem outcome_file (outcome : Outcome t request res t')
    (here : t.node (p ++ [name]) = some (.file content)) (notTable : p ++ [name] ≠ tablePath t)
    (notTemp : p ++ [name] ≠ tempPath t) :
    t'.node (p ++ [name]) = some (.file content) ∨
      (∃ username, request = .unregister username ∧ t.resolve (folderOf username) = some p) ∨
      ∃ username fileName, request = .delete username fileName ∧
        t.resolve (fileOf (folderOf username) fileName) = some (p ++ [name]) := by
  rcases outcome_node outcome (p ++ [name]) with same | change
  · exact Or.inl (same.trans here)
  · right
    cases change with
    | own place notDir => exact (place.elim notTable notTemp).elim
    | made resolved absent => exact absurd (absent.symm.trans here) (by simp)
    | @emptied username _ _ _ _ found inside file gone =>
        rw [← List.append_inj_left' inside rfl] at found
        exact Or.inl ⟨username, rfl, (find_node found).1⟩
    | removed found gone => exact absurd ((find_node found).2.symm.trans here) (by simp)
    | written resolved absent => exact absurd (absent.symm.trans here) (by simp)
    | @deleted username fileName _ _ found gone =>
        exact Or.inr ⟨username, fileName, rfl, (find_node found).1⟩

/-- The request is neither a DELETE of this file nor an UNREGISTER of its folder
or of a directory on the way to it. -/
def KeepsFile (username fileName : Bytes) (t : FileTree) : Request → Prop
  | .unregister other => ∀ q ∈ t.way (fileOf (folderOf username) fileName),
      t.resolve (folderOf other) ≠ some q
  | .delete other otherName =>
      t.resolve (fileOf (folderOf other) otherName) ≠
        t.resolve (fileOf (folderOf username) fileName) ∧
      ∀ q ∈ t.way (fileOf (folderOf username) fileName),
        t.resolve (fileOf (folderOf other) otherName) ≠ some q
  | _ => True

instance (username fileName : Bytes) (t : FileTree) :
    DecidablePred (KeepsFile username fileName t)
  | .unregister _ => inferInstanceAs (Decidable (∀ _ ∈ _, _ ≠ _))
  | .delete _ _ => inferInstanceAs (Decidable (_ ≠ _ ∧ ∀ _ ∈ _, _ ≠ _))
  | .register _ | .connect _ _ _ | .disconnect _ | .publish _ _ _ | .listUsers _
  | .listContent _ _ => isTrue trivial

structure Keeping (username fileName content : Bytes) (p : Path) (t : FileTree) : Prop where
  folder : t.resolve (folderOf username) = some p
  apart : p ≠ usuarios t
  here : t.node (p ++ [fileName ++ ascii ".txt"]) = some (.file content)

section Keeping
variable {username fileName : Bytes}

theorem Keeping.dir (keeping : Keeping username fileName content p t) : t.node p = some .dir :=
  (@node_parent t p (fileName ++ ascii ".txt") (by rw [keeping.here]; simp)).1

theorem resolve_fileOf {q : Path} (plain : slash ∉ fileName) :
    t.resolve (fileOf (folderOf username) fileName) = some q ↔
      ∃ p, t.resolve (folderOf username) = some p ∧ t.node p = some .dir ∧
        q = p ++ [fileName ++ ascii ".txt"] := by
  have valid := valid_txt plain
  rw [fileOf_eq, resolve_append_slash t (folderOf_ne_nil _), components_valid valid,
    Option.bind_eq_some_iff]
  refine exists_congr fun p => and_congr_right fun _ => ?_
  rw [FileTree.walk, enter_valid valid, FileTree.walk]
  split
  · rename_i dir
    rw [Option.some.injEq, eq_comm, and_iff_right dir]
  · rename_i notDir
    exact iff_of_false (by simp) fun both => notDir both.1

theorem Keeping.opens (keeping : Keeping username fileName content p t) :
    t.opendir (folderOf username) = some (t.entries p) := by
  have found : t.find (folderOf username) = some (p, .dir) := by
    simp [FileTree.find, keeping.folder, keeping.dir]
  rw [FileTree.opendir, found]

theorem Keeping.beside (keeping : Keeping username fileName content p t) (other : Name) :
    p ++ [fileName ++ ascii ".txt"] ≠ usuarios t ++ [other] := fun same =>
  keeping.apart (List.append_inj_left' same rfl)

theorem serves_keeping {event : Request × Reply} (plain : slash ∉ fileName)
    (keeping : Keeping username fileName content p t) (served : Serves t event t')
    (keeps : KeepsFile username fileName t event.1) :
    Keeping username fileName content p t' := by
  have outcome := serves_outcome served
  have cwd := outcome_cwd outcome
  have file := (resolve_fileOf plain).mpr ⟨p, keeping.folder, keeping.dir, rfl⟩
  have valid := valid_txt plain
  have onWay : p ∈ t.way (fileOf (folderOf username) fileName) :=
    fileOf_eq username fileName ▸ mem_way_of_resolve keeping.folder valid.1 valid.2.2.2
  have stays : ∀ q ∈ t.way (fileOf (folderOf username) fileName), t.node q = some .dir →
      t'.node q = some .dir := by
    intro q member dir
    rcases outcome_dir outcome dir with stays | ⟨other, asked, found⟩ | ⟨other, name, asked, found⟩
    · exact stays
    · rw [asked] at keeps
      exact absurd (find_node found).1 (keeps q member)
    · rw [asked] at keeps
      exact absurd (find_node found).1 (keeps.2 q member)
  obtain ⟨p', folder, -, same⟩ := (resolve_fileOf plain).mp (resolve_of_way cwd file stays)
  refine ⟨List.append_cancel_right same ▸ folder, ?_, ?_⟩
  · rw [usuarios_congr cwd]
    exact keeping.apart
  · rcases outcome_file outcome keeping.here (keeping.beside _) (keeping.beside _) with
      stays | ⟨other, asked, same⟩ | ⟨other, name, asked, same⟩
    · exact stays
    · rw [asked] at keeps
      exact absurd same (keeps p onWay)
    · rw [asked] at keeps
      exact absurd (same.trans file.symm) keeps.1

theorem run_keeping {history : History} (plain : slash ∉ fileName)
    (keeping : Keeping username fileName content p t)
    (run : Run (fun t event t' => Serves t event t' ∧ KeepsFile username fileName t event.1)
      t history t') : Keeping username fileName content p t' :=
  run.invariant (P := fun _ t => Keeping username fileName content p t) keeping
    fun keeping step => serves_keeping plain keeping step.1 step.2

end Keeping

end File

/-! ## Where PUBLISH puts it -/

/-- A REGISTER of the name was accepted once, by this server or an earlier one. -/
def RegisteredOnce (t : FileTree) (username : Bytes) : Prop :=
  ∃ s s' : Sys, s.tree.cwd = t.cwd ∧ s.tree.node (usuarios t) = some .dir ∧
    (registerServ username).run s = .ok (ascii "0") s'

section Placing
variable {t t' : FileTree} {username fileName description : Bytes} {p : Path}

theorem walk_unique {t t' : FileTree} {cs : List Name} :
    ∀ {cur p q : Path}, t.walk cur cs = some p → t'.walk cur cs = some q → p = q := by
  induction cs with
  | nil => exact fun first second => Option.some.inj (first.symm.trans second)
  | cons c rest ih =>
      intro cur p q first second
      rw [FileTree.walk] at first second
      split at first
      · split at second
        · exact ih first second
        · cases second
      · cases first

theorem RegisteredOnce.apart (registered : RegisteredOnce t username)
    (folder : t.resolve (folderOf username) = some p) : p ≠ usuarios t := by
  obtain ⟨s, s', cwd, dir, ran⟩ := registered
  rcases registerServ_ok ran with ⟨other, _⟩ | ⟨-, made⟩
  · exact absurd rfl other
  · obtain ⟨q, resolved, absent, _⟩ := mkdir_some made
    rw [resolve_folderOf] at folder resolved
    split at folder
    · split at resolved
      · rw [usuarios_congr cwd.symm] at folder
        rw [walk_unique folder resolved]
        rintro rfl
        rw [dir] at absent
        cases absent
      · cases resolved
    · cases folder

theorem keeping_of_published (plain : slash ∉ fileName) (registered : RegisteredOnce t username)
    (publication : Published username fileName description t t') :
    ∃ p, Keeping username fileName (description ++ [newline]) p t' := by
  obtain ⟨q, resolved, -, here, only⟩ := published_node publication
  obtain ⟨p, folder, -, rfl⟩ := (resolve_fileOf plain).mp resolved
  refine ⟨p, (published_grows publication).resolve folder, ?_, here⟩
  rw [usuarios_congr only.cwd]
  exact registered.apart folder

end Placing

/-! ## What the client hears of an operation -/

/-- Nothing yet, or the reply of the request, which has returned, as far as it went. -/
def Heard (s : Sys) (writes : List WriteResult) (request : Request) (c : Conn) : Prop :=
  c.sent = [] ∨ ∃ reply s', (serve request).run s = .ok reply s' ∧ c.sys.tree = s'.tree ∧
    c.sent = [(sendMessage writes (reply.res ++ [0])).2.1]

theorem sendMessage_prefix (writes : List WriteResult) :
    ∀ message : Bytes, (sendMessage writes message).2.1 <+: message := by
  induction writes with
  | nil => exact fun message => List.prefix_refl message
  | cons result rest ih =>
      intro message
      cases result with
      | failed => exact List.nil_prefix
      | wrote count =>
          rw [sendMessage]
          split
          · exact List.prefix_refl message
          · conv_rhs => rw [← List.take_append_drop (taken count message.length) message]
            exact List.prefix_append_right_inj _ |>.mpr (ih _)

section Hearing
variable {env : Surroundings} {s : Sys} {input : List ReadResult} {writes : List WriteResult}
  {request : Request} {fecha : Bytes}

theorem leads_servir : Leads (Unserved s writes) (servir request)
    (fun reply => Called s writes request reply) (Heard s writes request) := by
  intro c unserved
  rw [run_servir, unserved.sys]
  cases ran : (serve request).run s with
  | ok reply s' =>
      exact ⟨ran, unserved.writes, by rw [unserved.served]; rfl, unserved.recorded, unserved.sent⟩
  | error why s' => exact Or.inl unserved.sent

theorem leads_contestar_heard (operation : ¬ request.IsListing) (op : Operacion) (reply : Reply) :
    Leads (Called s writes request reply) (contestar env op request fecha reply)
      (fun _ => Heard s writes request) (Heard s writes request) := by
  rw [contestar, listar_of_operation operation]
  refine Leads.bind ((keeps_textoRpc request fecha).leads fun _ called => Or.inl called.sent)
    fun texto => Leads.bind (Q := fun _ c => (serve request).run s = .ok reply c.sys ∧
      c.writes = writes ∧ c.sent = []) ?_ fun _ =>
    Leads.bind (Q := fun _ => Heard s writes request) ?_ fun _ => Leads.pure fun _ heard => heard
  · intro c called
    simp only [EStateM.run, terminalRpc]
    cases env.terminalRpc with
    | true => exact ⟨called.ran, called.writes, called.sent⟩
    | false => exact Or.inl called.sent
  · refine leads_iff_meets.mpr (Meets.of_stopped fun c before => ?_)
    obtain ⟨ran, same, sent⟩ := before
    obtain ⟨rest, held, after⟩ := responder_frame (reply.res ++ [0]) c
    rw [after]
    exact Or.inr ⟨reply, c.sys, ran, rfl, by rw [sent, same]; rfl⟩

/-- Whatever fails on the way, the client hears nothing but the reply of the request. -/
theorem handled_heard {op : Operacion} {campos : List Bytes} {more : Bytes}
    (operation : ¬ (op.request campos).IsListing) (count : campos.length = op.attrs)
    (plain : ∀ campo ∈ campos ++ [fecha], Plain campo)
    (delivers : Delivers input (wire (op.name :: campos ++ [fecha]) ++ more)) :
    Heard s writes (op.request campos) (handled env (Conn.accepted s input writes)) := by
  have stops : Heard s writes (op.request campos)
      (stopped ((cuerpo env).run (Conn.accepted s input writes))) := by
    cases made : env.clntCreate with
    | true =>
        obtain ⟨left, -, body⟩ := @cuerpo_arrives s input writes op _ _ _ count plain delivers
        have leads : Leads (Unserved s writes) (atender env op (op.request campos) fecha) _ _ :=
          Leads.bind leads_servir fun reply => leads_contestar_heard operation op reply
        rw [body env made]
        exact leads.stopped ⟨rfl, rfl, rfl, rfl, rfl⟩
    | false =>
        have keeps : Preserves (Unserved s writes) (leerOperacion >>= fun operacion =>
            orReturn env.clntCreate >>= fun _ => caso env (operacionOf operacion)) fun _ => True := by
          rw [made]
          exact Preserves.bind (unserved_leerLinea returning_orUnlock) fun _ _ =>
            Preserves.bind (P := fun _ : Unit => False) (Preserves.throw _)
              fun _ absurdity => absurdity.elim
        rw [cuerpo_run]
        exact Or.inl (keeps (Conn.reading s input writes) ⟨rfl, rfl, rfl, rfl, rfl⟩).1.sent
  rw [handled, tratarMensaje, EStateM.run_bind]
  cases ran : (cuerpo env).run (Conn.accepted s input writes) with
  | ok _ c =>
      rw [ran] at stops
      exact stops
  | error e c =>
      rw [ran] at stops
      exact stops

theorem Heard.zero {c : Conn} (heard : Heard s writes request c) (operation : ¬ request.IsListing)
    (first : c.sent.flatten.head? = some 48) :
    ∃ reply s', (serve request).run s = .ok reply s' ∧ reply.res = ascii "0" ∧
      c.sys.tree = s'.tree := by
  rcases heard with nothing | ⟨reply, s', ran, tree, sent⟩
  · rw [nothing] at first
    cases first
  · obtain ⟨code, same⟩ := List.length_eq_one_iff.mp ((code_length operation s trivial).2 _ _ ran)
    obtain ⟨rest, whole⟩ := sendMessage_prefix writes (reply.res ++ [0])
    rw [sent, List.flatten_singleton] at first
    have head := congrArg List.head? whole
    rw [List.head?_append, first, same] at head
    exact ⟨reply, s', ran, by rw [same, ← Option.some.inj head]; decide, tree⟩

end Hearing

/-! ## What LIST_CONTENT reads back -/

/-- The file name, two blanks and the description, with a newline if there is room. -/
def describedAs (fileName description : Bytes) : Bytes :=
  fileName ++ ascii ".txt" ++ ascii "  " ++ description ++
    if description.length < 255 then [newline] else []

theorem firstLine_published {description : Bytes} (plain : newline ∉ description)
    (short : description.length ≤ 255) :
    firstLine (description ++ [newline]) =
      description ++ if description.length < 255 then [newline] else [] := by
  rw [firstLine, lines_single plain, List.headD_cons]
  split
  · exact List.take_of_length_le (by simp; omega)
  · rw [List.take_append_of_le_length (by omega), List.take_of_length_le short, List.append_nil]

theorem fileMessage_published {fileName description : Bytes}
    (plain : (0 : UInt8) ∉ description ∧ newline ∉ description) (short : description.length ≤ 255)
    (named : fileName.length ≤ 255) :
    fileMessage (fileName ++ ascii ".txt") (description ++ [newline]) =
      describedAs fileName description ++ [0] := by
  have ending : (ascii ".txt").length = 4 := by decide
  have first := firstLine_published plain.2 short
  rw [fileMessage_eq_record.mpr, record, first, describedAs]
  · simp only [List.append_assoc]
  · rw [first, List.length_append, List.length_append, ending]
    refine ⟨?_, ?_⟩
    · split <;> simp [plain.1, newline]
    · split <;> simp <;> omega

/-- The message that goes out for a file of the user's folder, after the reply and
the count. -/
def SendsFor (t : FileTree) (username : Bytes) (dName : Name) (message : Bytes)
    (sent : List Bytes) : Prop :=
  ∃ (entries : List (Name × Node)) (k : Nat), t.opendir (folderOf username) = some entries ∧
    ((files entries).map Prod.fst)[k]? = some dName ∧ (sent.drop 2)[k]? = some message

/-- The count of the files fits its array, none of them is empty, and their paths
fit theirs. -/
def FolderListable (t : FileTree) (username : Bytes) : Prop :=
  ∀ entries, t.opendir (folderOf username) = some entries →
    (files entries).length ≤ 255 ∧ ∀ file ∈ files entries,
      file.2 ≠ [] ∧ 13 + username.length + file.1.length < 1024

section Listing
variable {env : Surroundings} {s : Sys} {input : List ReadResult} {writes : List WriteResult}
  {username requester fileName description fecha acknowledgements : Bytes} {p : Path}

theorem list_content_describes (calm : s.faults = [])
    (keeping : Keeping username fileName (description ++ [newline]) p s.tree)
    (plain : (0 : UInt8) ∉ description ∧ newline ∉ description) (short : description.length ≤ 255)
    (fits : username.length < 38 ∧ username.length + fileName.length < 83)
    (listable : FolderListable s.tree username)
    (asked : Asked env .listContent [requester, username] fecha acknowledgements input writes)
    (fit : (beforeEnd acknowledgements).length < 256) :
    ∃ c, (tratarMensaje env).run (Conn.accepted s input writes) = .ok () c ∧
      SendsFor s.tree username (fileName ++ ascii ".txt") (describedAs fileName description ++ [0])
        c.sent := by
  have opens := keeping.opens
  obtain ⟨inside, rest⟩ := listable _ opens
  have member : (fileName ++ ascii ".txt", description ++ [newline]) ∈ files (s.tree.entries p) :=
    mem_files.mpr (mem_entries.mpr keeping.here)
  obtain ⟨k, at_k⟩ := List.mem_iff_getElem?.mp member
  have each := listable_of_files (fun file here => (rest file here).1) fun file here =>
    (rest file here).2
  obtain ⟨c, finished, sent, -⟩ := list_content_sends calm asked fit ⟨fits.1, opens⟩ inside each
  refine ⟨c, finished, _, k, opens, by rw [List.getElem?_map, at_k, Option.map_some], ?_⟩
  rw [sent, List.drop_succ_cons, List.drop_succ_cons, List.drop_zero, List.getElem?_map, at_k,
    Option.map_some, fileMessage_published plain short (by omega)]

end Listing

end DistrApp.Server
