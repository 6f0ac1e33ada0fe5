import DistrApp.Client.Decoded
import DistrApp.Client.Strings
import DistrApp.Server.Stocked

/-!
# The command line of the client

`shell` cuts a line at its blanks and calls a method with the parts.  The
description of PUBLISH is put together again from all parts after the file name,
so its blanks come back from LIST_CONTENT as they were typed.
-/

set_option autoImplicit false

namespace DistrApp.Client

open Text FileTree Effects Server

/-! ## The loop -/

/-- `' '.join(words)` -/
def join (words : List (List Char)) : List Char := [' '].intercalate words

def upperChar (c : Char) : List Char :=
  match c with
  | 'ß' => ['S', 'S']
  | 'ı' => ['I']
  | 'ſ' => ['S']
  | 'ﬀ' => ['F', 'F']
  | 'ﬁ' => ['F', 'I']
  | 'ﬂ' => ['F', 'L']
  | 'ﬃ' => ['F', 'F', 'I']
  | 'ﬄ' => ['F', 'F', 'L']
  | 'ﬅ' => ['S', 'T']
  | 'ﬆ' => ['S', 'T']
  | c => [c.toUpper]

/-- `text.upper()`; other letters beyond ASCII stay as they are. -/
def upper (text : List Char) : String := String.ofList (text.flatMap upperChar)

inductive Action
  | register (user : String)
  | unregister (user : String)
  | connect (user : String)
  | publish (fileName description : String)
  | delete (fileName : String)
  | listusers
  | listcontent (user : String)
  | disconnect (user : String)
  | getfile (user remoteFileName localFileName : String)
  | quit
  | print (text : String)
  deriving DecidableEq

/-- One turn of the loop of `shell`. -/
def shell (command : String) : Action :=
  let line := split command.toList
  let word (i : Nat) : String := String.ofList (line.getD i [])
  let name := upper (line.headD [])
  if name = "REGISTER" then
    if line.length = 2 then .register (word 1)
    else .print "Syntax error. Usage: REGISTER <userName>"
  else if name = "UNREGISTER" then
    if line.length = 2 then .unregister (word 1)
    else .print "Syntax error. Usage: UNREGISTER <userName>"
  else if name = "CONNECT" then
    if line.length = 2 then .connect (word 1)
    else .print "Syntax error. Usage: CONNECT <userName>"
  else if name = "PUBLISH" then
    if 3 ≤ line.length then .publish (word 1) (String.ofList (join (line.drop 2)))
    else .print "Syntax error. Usage: PUBLISH <fileName> <description>"
  else if name = "DELETE" then
    if line.length = 2 then .delete (word 1)
    else .print "Syntax error. Usage: DELETE <fileName>"
  else if name = "LIST_USERS" then
    if line.length = 1 then .listusers else .print "Syntax error. Use: LIST_USERS"
  else if name = "LIST_CONTENT" then
    if line.length = 2 then .listcontent (word 1)
    else .print "Syntax error. Usage: LIST_CONTENT <userName>"
  else if name = "DISCONNECT" then
    if line.length = 2 then .disconnect (word 1)
    else .print "Syntax error. Usage: DISCONNECT <userName>"
  else if name = "GET_FILE" then
    if line.length = 4 then .getfile (word 1) (word 2) (word 3)
    else .print
      "Syntax error. Usage: GET_FILE <userName> <remote_fileName> <local_fileName>"
  else if name = "QUIT" then
    if line.length = 1 then .quit else .print "Syntax error. Use: QUIT"
  else .print ("Error: command " ++ name ++ " not valid.")

/-- What the methods find outside: the local files, the clock and the socket. -/
structure Outside where
  fileDirectory : String
  pathExists : String → Bool
  timestamp : String
  disconnected : String
  freePort : String
  freeServer : String

/-- The file of a name in `client._fileDirectory`. -/
def Outside.has (outside : Outside) (fileName : String) : Bool :=
  outside.pathExists (outside.fileDirectory ++ "/" ++ fileName ++ ".txt")

/-- The call that goes to the server; GET_FILE goes to another client. -/
def Action.command (outside : Outside) : Action → Option Command
  | register user => some (.register user outside.timestamp)
  | unregister user => some (.unregister user outside.disconnected outside.timestamp)
  | connect user => some (.connect user outside.freePort outside.freeServer outside.timestamp)
  | publish fileName description =>
      some (.publish (outside.has fileName) fileName description outside.timestamp)
  | delete fileName => some (.delete fileName outside.timestamp)
  | listusers => some (.listusers outside.timestamp)
  | listcontent user => some (.listcontent user outside.timestamp)
  | disconnect user => some (.disconnect user outside.timestamp)
  | getfile _ _ _ | quit | print _ => none

/-- What a line makes the client write to the server, one exchange for each socket. -/
def typed (outside : Outside) (reading : Reading) (session : Session) (line : String) :
    List Exchange :=
  match (shell line).command outside with
  | none => []
  | some command => command.exchanges reading session

/-! ## PUBLISH -/

theorem join_split (text : List Char) : join (split text) = text :=
  List.intercalate_splitOn ' '

/-- The description is everything after the blank behind the file name. -/
theorem shell_publish {fileName : String} (plain : ' ' ∉ fileName.toList) (description : String) :
    shell ("PUBLISH " ++ fileName ++ " " ++ description) = .publish fileName description := by
  have parts : split ("PUBLISH " ++ fileName ++ " " ++ description).toList =
      "PUBLISH".toList :: fileName.toList :: split description.toList := by
    have cut : ("PUBLISH " ++ fileName ++ " " ++ description).toList =
        "PUBLISH".toList ++ ' ' :: (fileName.toList ++ ' ' :: description.toList) := by
      simp
    rw [cut, split_cons (by decide), split_cons plain]
  have more : (split description.toList).length ≠ 0 := fun none_left =>
    split_ne_nil _ (List.length_eq_zero_iff.mp none_left)
  have named : upper "PUBLISH".toList = "PUBLISH" := by decide
  simp only [shell, parts, List.headD_cons, named]
  rw [if_neg (by decide), if_neg (by decide), if_neg (by decide), if_pos trivial,
    if_pos (by simp; omega)]
  simp only [List.getD_cons_succ, List.getD_cons_zero, List.drop_succ_cons, List.drop_zero,
    join_split, String.ofList_toList]

theorem typed_publish {outside : Outside} {reading : Reading} {session : Session}
    {fileName description : String} (plain : ' ' ∉ fileName.toList)
    (existing : outside.has fileName = true) :
    typed outside reading session ("PUBLISH " ++ fileName ++ " " ++ description) =
      [publish session true fileName description outside.timestamp] := by
  simp only [typed, shell_publish plain, Action.command, existing, Command.exchanges]

theorem flatten_publish {session : Session} {user : String}
    (isConnected : session.isConnected = true) (connectedUser : session.connectedUser = some user)
    (fileName description timestamp : String) :
    (publish session true fileName description timestamp []).flatten =
      wire (Operacion.publish.name :: [user, fileName, description].map encode ++
        [encode timestamp]) := by
  simp only [publish, isConnected, connectedUser, connectedThen, allAtOnce, if_true]
  exact flatten_command .publish [user, fileName, description] timestamp

/-- A name that PUBLISH can be typed with for a file that is there. -/
def PublishName (fileName : String) : Prop :=
  fileName ≠ "" ∧ fileName ≠ "notfound" ∧
    ∀ c ∈ fileName.toList, c ≠ ' ' ∧ c ≠ '/' ∧ c ≠ '\x00' ∧ c ≠ '\n'

instance : DecidablePred PublishName := fun fileName =>
  inferInstanceAs (Decidable (fileName ≠ "" ∧ fileName ≠ "notfound" ∧
    ∀ c ∈ fileName.toList, c ≠ ' ' ∧ c ≠ '/' ∧ c ≠ '\x00' ∧ c ≠ '\n'))

/-- The line of a connected user who was registered, for a local file, at a handler
that gets its bytes and answers `0`. -/
structure PublishTyped (outside : Outside) (reading : Reading) (session : Session)
    (env : Surroundings) (s : Sys) (input : List ReadResult) (writes : List WriteResult)
    (user fileName description : String) : Prop where
  isConnected : session.isConnected = true
  connectedUser : session.connectedUser = some user
  userPlain : PlainValue user
  registered : RegisteredOnce s.tree (encode user)
  named : PublishName fileName
  described : PlainValue description
  clock : PlainValue outside.timestamp
  existing : outside.has fileName = true
  fits : (encode user).length < 38 ∧ (encode user).length + (encode fileName).length < 83
  delivers : ∃ exchange ∈ typed outside reading session
    ("PUBLISH " ++ fileName ++ " " ++ description), Delivers input (exchange []).flatten
  accepted : (handled env (Conn.accepted s input writes)).sent.flatten.head? = some 48

section Publishing
variable {outside : Outside} {reading : Reading} {session : Session} {env : Surroundings} {s : Sys}
  {input : List ReadResult} {writes : List WriteResult} {user fileName description : String}

theorem PublishName.notMem {c : Char} (named : PublishName fileName)
    (other : c = ' ' ∨ c = '/' ∨ c = '\x00' ∨ c = '\n') : c ∉ fileName.toList := by
  intro member
  obtain ⟨blank, slash, nul, newline⟩ := named.2.2 c member
  rcases other with rfl | rfl | rfl | rfl <;> contradiction

theorem PublishName.plain (named : PublishName fileName) (short : (encode fileName).length ≤ 255) :
    PlainValue fileName :=
  ⟨named.notMem (c := '\x00') (by simp), named.notMem (c := '\n') (by simp), short⟩

theorem PublishName.noSlash (named : PublishName fileName) : slash ∉ encode fileName :=
  notMem_encode (c := '/') (by decide) (by decide) (named.notMem (by simp))

theorem PublishTyped.delivered
    (typing : PublishTyped outside reading session env s input writes user fileName description) :
    Delivers input (wire (Operacion.publish.name :: [user, fileName, description].map encode ++
      [encode outside.timestamp])) := by
  obtain ⟨exchange, member, delivers⟩ := typing.delivers
  rw [typed_publish (typing.named.notMem (by simp)) typing.existing, List.mem_singleton] at member
  rw [member, flatten_publish typing.isConnected typing.connectedUser] at delivers
  exact delivers

theorem PublishTyped.keeping
    (typing : PublishTyped outside reading session env s input writes user fileName description) :
    ∃ p, Keeping (encode user) (encode fileName) (encode description ++ [newline]) p
      (handled env (Conn.accepted s input writes)).sys.tree := by
  have fits := typing.fits
  have plain : ∀ campo ∈ [user, fileName, description].map encode ++ [encode outside.timestamp],
      Plain campo := by
    rintro campo member
    simp only [List.map_cons, List.map_nil, List.cons_append, List.nil_append, List.mem_cons,
      List.not_mem_nil, or_false] at member
    rcases member with rfl | rfl | rfl | rfl
    · exact encode_plain typing.userPlain
    · exact encode_plain (typing.named.plain (by omega))
    · exact encode_plain typing.described
    · exact encode_plain typing.clock
  have delivered : Delivers input (wire (Operacion.publish.name ::
      [user, fileName, description].map encode ++ [encode outside.timestamp]) ++ []) := by
    rw [List.append_nil]
    exact typing.delivered
  have heard : Heard s writes (Operacion.publish.request ([user, fileName, description].map encode))
      (handled env (Conn.accepted s input writes)) :=
    handled_heard (fun listing => listing) rfl plain delivered
  obtain ⟨reply, s', ran, zero, tree⟩ := heard.zero (fun listing => listing) typing.accepted
  have published := answer_ok ran
  rw [zero] at published
  rcases publishServ_ok published with ⟨other, _⟩ | ⟨-, publication⟩
  · exact absurd rfl other
  · rw [tree]
    exact keeping_of_published typing.named.noSlash typing.registered publication

/-- The record of a description: as it was typed, with a newline if there is room. -/
def recordOf (fileName description : String) : Bytes :=
  encode (fileName ++ ".txt" ++ "  " ++ description) ++
    if (encode description).length < 255 then [newline] else []

theorem recordOf_eq (fileName description : String) :
    recordOf fileName description = describedAs (encode fileName) (encode description) := by
  rw [recordOf, describedAs, encode_append, encode_append, encode_append]
  rfl

/-- A published description comes back as it was typed, from every folder that
LIST_CONTENT can list, until the file is deleted or the user goes. -/
theorem description_comes_back {t : FileTree} {history : History} {env' : Surroundings} {s' : Sys}
    {input' : List ReadResult} {writes' : List WriteResult}
    {requester fecha acknowledgements : Bytes}
    (typing : PublishTyped outside reading session env s input writes user fileName description)
    (run : Run (fun t event t' => Server.Serves t event t' ∧
        KeepsFile (encode user) (encode fileName) t event.1)
      (handled env (Conn.accepted s input writes)).sys.tree history t)
    (tree : s'.tree = t) (calm : s'.faults = []) (listable : FolderListable t (encode user))
    (asked : Server.Asked env' .listContent [requester, encode user] fecha acknowledgements
      input' writes')
    (fit : (beforeEnd acknowledgements).length < 256) :
    ∃ c, (tratarMensaje env').run (Conn.accepted s' input' writes') = .ok () c ∧
      SendsFor t (encode user) (encode (fileName ++ ".txt"))
        (recordOf fileName description ++ [0]) c.sent := by
  obtain ⟨p, keeping⟩ := typing.keeping
  have plain := encode_plain typing.described
  have kept := run_keeping typing.named.noSlash keeping run
  rw [← tree] at kept listable ⊢
  rw [recordOf_eq, encode_append]
  exact list_content_describes calm kept plain.1 typing.described.2.2 typing.fits listable asked fit

end Publishing

def anaOutside : Outside := ⟨"files", fun _ => true, "10:00", "10:00", "4001", "10.0.0.1"⟩

def anaReading : Reading := ⟨fun _ => true, fun _ => none, fun _ => true⟩

theorem registeredOnce_ana {t : FileTree} (cwd : t.cwd = firstStart.cwd) :
    RegisteredOnce t (encode "ana") := by
  have made : (firstStart.mkdir (folderOf (encode "ana"))).isSome = true := by decide +kernel
  obtain ⟨tree, made⟩ := Option.isSome_iff_exists.mp made
  refine ⟨⟨firstStart, [], []⟩, ⟨tree, [], []⟩, cwd.symm, ?_, ?_⟩
  · rw [usuarios_congr cwd]
    decide
  · rw [run_registerServ rfl, if_neg (by decide), if_neg (by decide +kernel)]
    simp only [made]

def draftLine : List ReadResult := reads (ascii "PUBLISH\x00ana\x00notes\x00a  draft \x0010:00\x00")

theorem draftLine_delivers : Delivers draftLine
    (publish ⟨some "ana", true⟩ true "notes" "a  draft " "10:00" []).flatten := by
  have bytes : (publish ⟨some "ana", true⟩ true "notes" "a  draft " "10:00" []).flatten =
      ascii "PUBLISH\x00ana\x00notes\x00a  draft \x0010:00\x00" := by decide +kernel
  rw [bytes]
  exact delivers_reads _

theorem anaTyping {s : Sys} (registered : RegisteredOnce s.tree (encode "ana"))
    (accepted : (handled answering (Conn.accepted s draftLine [])).sent.flatten.head? = some 48) :
    PublishTyped anaOutside anaReading ⟨some "ana", true⟩ answering s draftLine [] "ana" "notes"
      "a  draft " where
  isConnected := rfl
  connectedUser := rfl
  userPlain := by decide
  registered := registered
  named := ⟨by decide, by decide, by simp⟩
  described := by decide
  clock := by decide
  existing := rfl
  fits := by decide
  delivers := by
    refine ⟨_, ?_, draftLine_delivers⟩
    rw [typed_publish (by decide) rfl]
    exact List.mem_singleton_self _
  accepted := accepted

theorem description_comes_back_ana :
    ∃ c, (tratarMensaje answering).run (Conn.accepted ⟨treeAfter (handled answering
        (Conn.accepted ⟨treeAfter firstStart anaConnected, [], []⟩ draftLine [])).sys.tree
          [.delete (ascii "ana") (ascii "other")], [], []⟩
        (reads (ascii "LIST_CONTENT\x00ana\x00ana\x0010:00\x00OK\x00")) []) = .ok () c ∧
      SendsFor (treeAfter (handled answering (Conn.accepted ⟨treeAfter firstStart anaConnected, [], []⟩
        draftLine [])).sys.tree [.delete (ascii "ana") (ascii "other")]) (encode "ana")
        (encode ("notes" ++ ".txt")) (recordOf "notes" "a  draft " ++ [0]) c.sent := by
  have cwd : (treeAfter firstStart anaConnected).cwd = firstStart.cwd := by decide +kernel
  have accepted : (handled answering (Conn.accepted ⟨treeAfter firstStart anaConnected, [], []⟩
      draftLine [])).sent.flatten.head? = some 48 := by decide +kernel
  have keeps : KeepsFile (encode "ana") (encode "notes") (handled answering (Conn.accepted
      ⟨treeAfter firstStart anaConnected, [], []⟩ draftLine [])).sys.tree
        (.delete (ascii "ana") (ascii "other")) := by decide +kernel
  have served : (serveAll (handled answering (Conn.accepted
      ⟨treeAfter firstStart anaConnected, [], []⟩ draftLine [])).sys.tree
        [.delete (ascii "ana") (ascii "other")]).isSome = true := by decide +kernel
  have opens : (treeAfter (handled answering (Conn.accepted ⟨treeAfter firstStart anaConnected, [], []⟩
      draftLine [])).sys.tree [.delete (ascii "ana") (ascii "other")]).opendir
        (folderOf (encode "ana")) =
      some [(ascii "notes.txt", .file (ascii "a  draft \n"))] := by decide +kernel
  generalize treeAfter firstStart anaConnected = t at cwd accepted keeps served opens ⊢
  have typing : PublishTyped anaOutside anaReading ⟨some "ana", true⟩ answering ⟨t, [], []⟩ draftLine
      [] "ana" "notes" "a  draft " :=
    anaTyping (registeredOnce_ana cwd) accepted
  have asked : Server.Asked answering .listContent [ascii "ana", encode "ana"] (ascii "10:00")
      (ascii "OK\x00") (reads (ascii "LIST_CONTENT\x00ana\x00ana\x0010:00\x00OK\x00")) [] :=
    ⟨rfl, rfl, rfl, by decide, by decide, delivers_reads _⟩
  have run : Run (fun t event t' => Server.Serves t event t' ∧
      KeepsFile (encode "ana") (encode "notes") t event.1)
      (handled answering (Conn.accepted ⟨t, [], []⟩ draftLine [])).sys.tree
      (historyAfter (handled answering (Conn.accepted ⟨t, [], []⟩ draftLine [])).sys.tree
        [.delete (ascii "ana") (ascii "other")])
      (treeAfter (handled answering (Conn.accepted ⟨t, [], []⟩ draftLine [])).sys.tree
        [.delete (ascii "ana") (ascii "other")]) :=
    run_of_holdsAlong (by decide) ⟨keeps, trivial⟩ served
  have listable : FolderListable (treeAfter (handled answering (Conn.accepted ⟨t, [], []⟩ draftLine
      [])).sys.tree [.delete (ascii "ana") (ascii "other")]) (encode "ana") := by
    intro entries opened
    rw [opens, Option.some.injEq] at opened
    rw [← opened]
    exact ⟨by decide, by decide⟩
  generalize treeAfter (handled answering (Conn.accepted ⟨t, [], []⟩ draftLine [])).sys.tree
    [.delete (ascii "ana") (ascii "other")] = last at run listable ⊢
  exact description_comes_back typing run rfl rfl listable asked (by decide)

def anaEntry : Bytes := ascii "ana 10.0.0.1 4001 \n"

def anaConnect : Request := .connect (encode "ana") (ascii "4001") (ascii "10.0.0.1")

theorem stocked_ana : ∃ s, Stocked (encode "ana") anaEntry [] s := by
  have named : ProperName (encode "ana") := by decide
  obtain ⟨reply, s, ran, calm, -, rep⟩ := @simulates_register ⟨firstStart, [], []⟩ _ (encode "ana")
    rfl (represents_empty emptyStore_firstStart) ⟨named, by decide⟩
  have first : sysAfter ⟨firstStart, [], []⟩ [.register (encode "ana")] = s := by
    rw [sysAfter, List.foldl_cons, List.foldl_nil, ran]
    rfl
  have empty : table s.tree = some [] := by
    rw [← first]
    decide +kernel
  have scan : ScanFits s.tree anaConnect := by
    rintro text here
    cases empty.symm.trans here
    decide
  obtain ⟨reply', s', ran', calm', -, rep'⟩ : Simulates s _ anaConnect :=
    simulates_connect calm rep ⟨named, by decide⟩ scan
  have second : sysAfter ⟨firstStart, [], []⟩ [.register (encode "ana"), anaConnect] = s' := by
    rw [sysAfter, List.foldl_cons, List.foldl_cons, List.foldl_nil, ran]
    show stopped ((serve anaConnect).run s) = s'
    rw [ran']
    rfl
  have served : Server.Serves firstStart (.register (encode "ana"), reply) s.tree :=
    ⟨(by decide : (Request.register (encode "ana")).Deliverable), _, s, rfl, ran, rfl⟩
  have served' : Server.Serves s.tree (anaConnect, reply') s'.tree :=
    ⟨(by decide : anaConnect.Deliverable), s, s', rfl, ran', rfl⟩
  have started : Reachable firstStart := ⟨firstStart, by decide, [], Run.start⟩
  have cwd : s'.tree.cwd = firstStart.cwd :=
    (outcome_cwd (serves_outcome served')).trans (outcome_cwd (serves_outcome served))
  have held : applyRequest (applyRequest Directory.empty (.register (encode "ana"))) anaConnect
      (encode "ana") = some fun _ => none := by
    simp [applyRequest, anaConnect, Directory.register, Directory.empty]
  refine ⟨s', calm', (started.serves served).serves served', registeredOnce_ana cwd, ?_,
    List.nodup_nil, _, _, rep', held, by simp⟩
  rw [← second]
  decide +kernel

def numbers (n : Nat) : List Bytes := (List.range n).map fun k => encode (toString k)

theorem numbers_nodup (n : Nat) : (numbers n).Nodup := by
  refine List.nodup_range.map fun j k same => ?_
  have values := congrArg (fun text : String => int text.toList) (encode_injective same)
  simpa only [int_toString, Option.some.injEq, Nat.cast_inj] using values

theorem stocked_numbers : ∃ s, Stocked (encode "ana") anaEntry (numbers 255) s := by
  obtain ⟨s, stocked⟩ := stocked_ana
  have fits : ∀ k < 255, encode (toString k) ≠ [] ∧ slash ∉ encode (toString k) ∧
      encode (toString k) ≠ notfound ∧ (encode (toString k)).length < 80 ∧
      (0 : UInt8) ∉ encode (toString k) ∧ newline ∉ encode (toString k) := by decide +kernel
  have user : (encode "ana").length = 3 := by decide
  have each : ∀ f ∈ numbers 255, NamesFit (.publish (encode "ana") f []) ∧
      (Request.publish (encode "ana") f []).Deliverable := by
    rintro f member
    obtain ⟨k, small, rfl⟩ := List.mem_map.mp member
    obtain ⟨nonempty, plain, other, short, clean⟩ := fits k (List.mem_range.mp small)
    refine ⟨⟨by decide, ⟨nonempty, plain, other⟩, by omega, by omega⟩, ?_⟩
    rintro field here
    simp only [Request.fields, Request.username, Request.others, List.mem_cons, List.not_mem_nil,
      or_false] at here
    rcases here with rfl | rfl | rfl
    · decide
    · exact clean
    · decide
  exact stocked_all stocked (by decide) (numbers_nodup 255) each

theorem anaTyping_stocked {s s' : Sys} {reply : Reply} {text : Bytes} {names : List Bytes}
    (stocked : Stocked (encode "ana") text names s) (zero : reply.res = ascii "0")
    (ran : (serve (.publish (encode "ana") (encode "notes") (encode "a  draft "))).run s =
      .ok reply s') (calm : s'.faults = []) :
    PublishTyped anaOutside anaReading ⟨some "ana", true⟩ answering s draftLine [] "ana" "notes"
        "a  draft " ∧
      (handled answering (Conn.accepted s draftLine [])).sys.tree = s'.tree := by
  have asked : Server.Asked answering .publish [encode "ana", encode "notes", encode "a  draft "]
      (encode "10:00") [] draftLine [] :=
    ⟨rfl, rfl, rfl, by decide, by decide, delivers_reads _⟩
  have recorded : textoRpc (Operacion.publish.request
      [encode "ana", encode "notes", encode "a  draft "]) (encode "10:00") =
        pure (encode "notes" ++ ascii " " ++ encode "10:00") := by
    simp only [Operacion.request, List.getD_cons_succ, List.getD_cons_zero, textoRpc, concatenar]
    exact if_pos (by decide)
  obtain ⟨c, finished, sent, tree⟩ := asked.sends ran calm recorded (Gives.pure ())
  have same : handled answering (Conn.accepted s draftLine []) = c := by
    rw [handled, finished]
    rfl
  have accepted : (handled answering (Conn.accepted s draftLine [])).sent.flatten.head? = some 48 := by
    rw [same, sent, zero]
    decide
  exact ⟨anaTyping stocked.registered accepted, by rw [same, tree]⟩

/-- With 256 files the count is read one byte past its array, and C no longer says
that the record goes out. -/
theorem crowded_folder_not_listed :
    ¬ ∀ (outside : Outside) (reading : Reading) (session : Session) (env env' : Surroundings)
      (s s' : Sys) (input input' : List ReadResult) (writes writes' : List WriteResult)
      (user fileName description : String) (t : FileTree) (history : History)
      (requester fecha acknowledgements : Bytes), Reachable s.tree → Listed s.tree (encode user) →
      PublishTyped outside reading session env s input writes user fileName description →
      Run (fun t event t' => Server.Serves t event t' ∧
        KeepsFile (encode user) (encode fileName) t event.1)
        (handled env (Conn.accepted s input writes)).sys.tree history t →
      s'.tree = t → s'.faults = [] →
      Server.Asked env' .listContent [requester, encode user] fecha acknowledgements input' writes' →
      (beforeEnd acknowledgements).length < 256 →
      ∃ c, (tratarMensaje env').run (Conn.accepted s' input' writes') = .ok () c ∧
        SendsFor t (encode user) (encode (fileName ++ ".txt"))
          (recordOf fileName description ++ [0]) c.sent := by
  intro always
  obtain ⟨s, stocked⟩ := stocked_numbers
  have new : encode "notes" ∉ numbers 255 := by
    rintro member
    obtain ⟨k, -, same⟩ := List.mem_map.mp member
    have value := (int_toString k).symm.trans
      (congrArg (fun text : String => int text.toList) (encode_injective same))
    have none_there : int "notes".toList = none := by decide +kernel
    rw [none_there] at value
    cases value
  have fits : NamesFit (.publish (encode "ana") (encode "notes") (encode "a  draft ")) :=
    ⟨by decide, ⟨by decide, by decide, by decide⟩, by decide, by decide⟩
  obtain ⟨reply, s₁, ran, zero, crowded⟩ := stocked.publish fits (by decide) (by decide) new
  obtain ⟨typing, tree⟩ := anaTyping_stocked stocked zero ran crowded.calm
  have listed : Listed s.tree (encode "ana") :=
    ⟨anaEntry, stocked.here, anaEntry, by decide, by decide⟩
  have asked : Server.Asked answering .listContent [ascii "ana", encode "ana"] (ascii "10:00")
      (ascii "OK\x00") (reads (ascii "LIST_CONTENT\x00ana\x00ana\x0010:00\x00OK\x00")) [] :=
    ⟨rfl, rfl, rfl, by decide, by decide, delivers_reads _⟩
  obtain ⟨entries, opens, count, some_text⟩ := crowded.folder (by decide)
  have many : 255 < (files entries).length := by
    rw [count, List.length_cons, numbers, List.length_map, List.length_range]
    omega
  have run : Run (fun t event t' => Server.Serves t event t' ∧
      KeepsFile (encode "ana") (encode "notes") t event.1)
      (handled answering (Conn.accepted s draftLine [])).sys.tree [] s₁.tree := by
    rw [tree]
    exact Run.start
  obtain ⟨c, finished, -⟩ := always anaOutside anaReading ⟨some "ana", true⟩ answering answering s s₁
    draftLine _ [] [] "ana" "notes" "a  draft " s₁.tree [] _ _ _ stocked.reached listed typing run rfl
    crowded.calm asked (by decide)
  exact list_content_stops crowded.calm asked (by decide) ⟨by decide, opens⟩ some_text (Or.inl many) c
    finished

end DistrApp.Client
