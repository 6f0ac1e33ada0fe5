import DistrApp.Server.Disconnect
import DistrApp.Server.Sent

/-!
# The announced numbers

LIST_USERS announces the number of pieces it then sends.  LIST_CONTENT sends as
many bytes of the count as it has files, and one more, which is the decimal and
its NUL for a single file only.
-/

set_option autoImplicit false

namespace DistrApp.Server

open Text FileTree Effects

/-! ## LIST_USERS -/

/-- The reply, the count, and as many messages as it says; they carry the text. -/
def SentWhole (text : Bytes) (count : Int) (sent : List Bytes) : Prop :=
  ∃ messages : List Bytes, count = messages.length ∧ messages.flatten = text ∧
    sent = (ascii "0" ++ [0]) :: (decimal count ++ [0]) :: messages.map (· ++ [0])

theorem lineMessage_of_clean {text piece : Bytes} (clean : (0 : UInt8) ∉ text)
    (member : piece ∈ pieces 256 text) : lineMessage piece = piece ++ [0] := by
  rw [lineMessage, cString_eq_self]
  intro inside
  rw [← pieces_flatten 256 (by decide) text] at clean
  exact clean (List.mem_flatten.mpr ⟨piece, member, inside⟩)

theorem sentWhole_usersMessages {text : Bytes} (clean : (0 : UInt8) ∉ text) :
    SentWhole text (pieces 256 text).length (usersMessages text) := by
  refine ⟨pieces 256 text, rfl, pieces_flatten 256 (by decide) text, ?_⟩
  rw [usersMessages, List.map_congr_left fun piece => lineMessage_of_clean clean]

theorem listUsersServ_zero {s s' : Sys} (calm : s.faults = []) {username : Bytes}
    {announced : Option Int}
    (ran : (listUsersServ username).run s = .ok (ascii "0", announced) s') :
    username ≠ [] ∧ username.length < 8 ∧ s.tree.access (folderOf username) = true ∧
      s'.tree = s.tree ∧ s'.faults = [] ∧ ∃ file text,
        s.tree.openRead conectadosTxt = some (file, text) ∧
          announced = some (pieces 256 text).length := by
  rw [run_listUsersServ calm] at ran
  have other : ∀ {code : Bytes} {s₁ : Sys}, code ≠ ascii "0" →
      (EStateM.Result.ok (code, none) s₁ : EStateM.Result Undefined Sys (Bytes × Option Int)) ≠
        .ok (ascii "0", announced) s' :=
    fun different same => different (Prod.mk.inj (EStateM.Result.ok.inj same).1).1
  split at ran
  · exact absurd ran (other (by decide))
  · rename_i named
    split at ran
    · cases ran
    · rename_i short
      split at ran
      · exact absurd ran (other (by decide))
      · rename_i registered
        split at ran
        · exact absurd ran (other (by decide))
        · rename_i file text opened
          obtain ⟨pair, rfl⟩ := EStateM.Result.ok.inj ran
          exact ⟨named, not_le.mp short, by simpa using registered, rfl, calm, file, text, opened,
            (Prod.mk.inj pair).2.symm⟩

/-- The count that LIST_USERS announces is the number of messages it sends, and
they put the whole table together.  `lineCount` is taken without the bound of
its `int`. -/
theorem list_users_whole {env : Surroundings} {s s' : Sys} {input : List ReadResult}
    {writes : List WriteResult} {username fecha acknowledgements text : Bytes}
    {announced : Option Int} (calm : s.faults = [])
    (here : table s.tree = some text) (clean : (0 : UInt8) ∉ text)
    (zero : (listUsersServ username).run s = .ok (ascii "0", announced) s')
    (asked : Asked env .listUsers [username] fecha acknowledgements input writes)
    (fit : ∀ campo ∈ lineas (1 + (pieces 256 text).length) acknowledgements, campo.length < 256) :
    ∃ c count, (tratarMensaje env).run (Conn.accepted s input writes) = .ok () c ∧
      announced = some count ∧ SentWhole text count c.sent := by
  obtain ⟨-, -, registered, tree, calm', file, text', opened, rfl⟩ := listUsersServ_zero calm zero
  have same : text' = text := by
    have found := find_table (rooted_of_access registered)
    rw [table_eq_some.mp here, Option.map_some] at found
    rw [FileTree.openRead, found] at opened
    exact (Prod.mk.inj (Option.some.inj opened)).2.symm
  subst same
  have ran : (serve (Operacion.listUsers.request [username])).run s =
      .ok ⟨ascii "0", some (pieces 256 text').length, none⟩ s' := by
    show (serve (.listUsers username)).run s = _
    rw [serve, EStateM.run_bind, zero]
    rfl
  rw [← tree] at opened
  obtain ⟨c, finished, sent, -⟩ := asked.sends ran calm' rfl (gives_listarUsuarios opened fit)
  exact ⟨c, _, finished, rfl, sent ▸ sentWhole_usersMessages clean⟩

def unevenTable : Bytes :=
  ascii "ana 10.0.0.1 4001 \n" ++ List.replicate 240 (UInt8.ofNat 98) ++
    ascii " 10.0.0.2 40002 \neva 10.0.0.3 4003 "

def unevenTree : FileTree :=
  (treeAfter firstStart anaConnected).put (tablePath (treeAfter firstStart anaConnected))
    (.file unevenTable)

theorem list_users_whole_ana :
    ∃ c count, (tratarMensaje answering).run (Conn.accepted ⟨unevenTree, [], []⟩
        (reads (ascii "LIST_USERS\x00ana\x0010:00\x00OK\x00OK\x00OK\x00OK\x00OK\x00")) [.wrote 1]) =
          .ok () c ∧
      some 4 = some count ∧ SentWhole unevenTable count c.sent := by
  have here : table unevenTree = some unevenTable := by decide +kernel
  have opened : unevenTree.openRead conectadosTxt =
      some ([ascii "usuarios", ascii "conectados.txt"], unevenTable) := by decide +kernel
  have registered : unevenTree.access (folderOf (ascii "ana")) = true := by decide +kernel
  have messages : (pieces 256 unevenTable).length = 4 := by decide +kernel
  generalize unevenTree = t at here opened registered ⊢
  have zero := run_listUsersServ (s := ⟨t, [], []⟩) rfl (ascii "ana")
  rw [if_neg (by decide), if_neg (by decide), registered, opened] at zero
  simp only [messages] at zero
  have asked : Asked answering .listUsers [ascii "ana"] (ascii "10:00")
      (ascii "OK\x00OK\x00OK\x00OK\x00OK\x00")
      (reads (ascii "LIST_USERS\x00ana\x0010:00\x00OK\x00OK\x00OK\x00OK\x00OK\x00")) [.wrote 1] :=
    ⟨rfl, rfl, rfl, by decide, by decide, delivers_reads _⟩
  exact list_users_whole rfl here (by decide +kernel) zero asked (by rw [messages]; decide)

/-! ## LIST_CONTENT -/

def files (entries : List (Name × Node)) : List (Name × Bytes) :=
  entries.filterMap fun
    | (_, .dir) => none
    | (dName, .file content) => some (dName, content)

/-- The first line of a text, of a longer one the first 255 bytes. -/
def firstLine (content : Bytes) : Bytes := ((lines content).headD []).take 255

def record (dName : Name) (content : Bytes) : Bytes := dName ++ ascii "  " ++ firstLine content

/-- The reply, the count with its NUL, and one record for each regular file. -/
def ContentExact (entries : List (Name × Node)) (sent : List Bytes) : Prop :=
  ∃ records : List Bytes, records.Perm ((files entries).map fun file => record file.1 file.2) ∧
    sent = (ascii "0" ++ [0]) :: (decimal (files entries).length ++ [0]) :: records.map (· ++ [0])

theorem length_files (entries : List (Name × Node)) :
    (files entries).length = (regularEntries entries).length := by
  induction entries with
  | nil => rfl
  | cons entry rest ih =>
      obtain ⟨dName, _ | content⟩ := entry
      · simpa [files, regularEntries] using ih
      · simpa [files, regularEntries] using ih

theorem mem_files {entries : List (Name × Node)} {dName : Name} {content : Bytes} :
    (dName, content) ∈ files entries ↔ (dName, .file content) ∈ entries := by
  rw [files, List.mem_filterMap]
  constructor
  · rintro ⟨⟨name, _ | text⟩, member, same⟩
    · cases same
    · cases same
      exact member
  · exact fun member => ⟨_, member, rfl⟩

theorem fileMessages_eq (entries : List (Name × Node)) :
    fileMessages entries = (files entries).map fun file => fileMessage file.1 file.2 := by
  induction entries with
  | nil => rfl
  | cons entry rest ih =>
      obtain ⟨dName, _ | content⟩ := entry
      · simpa [files, fileMessages] using ih
      · simpa [files, fileMessages] using ih

theorem cutPiece_firstLine (content : Bytes) : (cutPiece 255 content).1 = firstLine content := by
  by_cases empty : content = []
  · subst empty
    rfl
  · have whole : (cutPiece (content.length + 256) content).1.length ≤ content.length := by
      have together := congrArg List.length (cutPiece_append (content.length + 256) content)
      rw [List.length_append] at together
      omega
    have line : (cutPiece (content.length + 1) content).1 =
        (cutPiece (content.length + 256) content).1 := by
      rw [cutPiece_take (show content.length + 1 ≤ content.length + 256 by omega),
        List.take_of_length_le (by omega)]
    rw [firstLine, lines, pieces_cons _ (by omega) empty, List.headD_cons,
      show content.length + 2 - 1 = content.length + 1 by omega, line]
    exact cutPiece_take (by omega) content

theorem fileMessage_eq_record {dName : Name} {content : Bytes} :
    fileMessage dName content = record dName content ++ [0] ↔
      (0 : UInt8) ∉ firstLine content ∧ dName.length + 2 + (firstLine content).length ≤ 1023 := by
  rw [fileMessage, cutPiece_firstLine, registro, record, List.append_left_inj]
  have blanks : (ascii "  ").length = 2 := by decide
  constructor
  · intro same
    have lengths := congrArg List.length same
    have prefixed : cString (firstLine content) <+: firstLine content := List.takeWhile_prefix _
    have shorter := prefixed.length_le
    simp only [List.length_take, List.length_append, blanks] at lengths
    have whole := prefixed.eq_of_length (by omega)
    refine ⟨fun nul => ?_, by omega⟩
    rw [← whole] at nul
    exact absurd (List.mem_takeWhile_imp nul) (by decide)
  · rintro ⟨clean, fits⟩
    rw [cString_eq_self clean, List.take_of_length_le]
    simp only [List.length_append, blanks]
    omega

theorem length_decimal (n : Nat) : (decimal n).length = (Nat.repr n).length := by
  rw [decimal, ascii, List.length_map, String.length_toList]
  rfl

/-- Only `1` has as many digits as it says. -/
theorem length_decimal_eq_self {n : Nat} : (decimal n).length = n ↔ n = 1 := by
  rw [length_decimal]
  constructor
  · intro same
    by_contra other
    have some_digit : 0 < (Nat.repr n).length := Nat.length_repr_pos
    obtain ⟨m, rfl⟩ : ∃ m, n = m + 2 := ⟨n - 2, by omega⟩
    have many : m + 2 < 10 ^ (m + 1) := by
      have small : m + 1 < 2 ^ (m + 1) := Nat.lt_two_pow_self
      have larger : 2 ^ (m + 1) < 10 ^ (m + 1) := Nat.pow_lt_pow_left (by decide) (by omega)
      omega
    have short := (Nat.length_repr_le_iff (Nat.succ_pos m)).mpr many
    omega
  · rintro rfl
    decide

/-- `res2 + 1` bytes are the decimal and its NUL for one file only. -/
theorem countMessage_exact {n : Nat} (inside : n ≤ 255) :
    countMessage n = decimal n ++ [0] ↔ n = 1 := by
  rw [countMessage]
  constructor
  · intro same
    have lengths := congrArg List.length same
    simp only [List.length_take, List.length_append, List.length_replicate,
      List.length_singleton] at lengths
    exact length_decimal_eq_self.mp (by omega)
  · rintro rfl
    decide

section Content
variable {env : Surroundings} {s : Sys} {input : List ReadResult} {writes : List WriteResult}
  {username usernameFolder fecha acknowledgements : Bytes} {entries : List (Name × Node)}

theorem run_listContent (calm : s.faults = [])
    (opens : s.tree.opendir (folderOf usernameFolder) = some entries)
    (short : usernameFolder.length < 38) :
    ∃ s', s'.tree = s.tree ∧ s'.faults = [] ∧
      (serve (Operacion.listContent.request [username, usernameFolder])).run s =
        .ok (contentReply usernameFolder entries) s' := by
  obtain ⟨handles, ran⟩ : ∃ handles, (listContentServ username usernameFolder).run s =
      .ok (ascii "0", ((regularEntries entries).length : Int), some usernameFolder)
        { s with handles := handles } := by
    rw [run_listContentServ calm, if_neg (by omega), opens]
    exact ⟨_, rfl⟩
  refine ⟨{ s with handles := handles }, rfl, calm, ?_⟩
  show (serve (.listContent username usernameFolder)).run s = _
  rw [serve, EStateM.run_bind, ran]
  rfl

theorem list_content_sends (calm : s.faults = [])
    (asked : Asked env .listContent [username, usernameFolder] fecha acknowledgements input writes)
    (fit : (beforeEnd acknowledgements).length < 256)
    (folder : Folder s.tree usernameFolder entries)
    (inside : (files entries).length ≤ 255)
    (fits : ∀ e ∈ entries, Listable (folderOf usernameFolder) e) :
    ∃ c, (tratarMensaje env).run (Conn.accepted s input writes) = .ok () c ∧
      c.sent = (ascii "0" ++ [0]) :: countMessage (files entries).length ::
        (files entries).map (fun file => fileMessage file.1 file.2) ∧ c.sys.tree = s.tree := by
  obtain ⟨s', tree, calm', ran⟩ := @run_listContent s username _ _ calm folder.opens folder.short
  rw [length_files] at inside ⊢
  rw [← fileMessages_eq]
  rw [← tree] at folder
  have listed : Gives (Talking s'.tree acknowledgements [ascii "0" ++ [0]])
      (listarContenido env (contentReply usernameFolder entries)) () _ :=
    Gives.bind (gives_leerCampo fit) (gives_enviarContenido env folder inside fits)
  obtain ⟨c, finished, sent, same⟩ := asked.sends ran calm' rfl listed
  exact ⟨c, finished, sent, same.trans tree⟩

theorem listable_of_files (some_text : ∀ file ∈ files entries, file.2 ≠ [])
    (shorts : ∀ file ∈ files entries, 13 + usernameFolder.length + file.1.length < 1024) :
    ∀ e ∈ entries, Listable (folderOf usernameFolder) e := by
  rintro ⟨dName, _⟩ member content rfl
  have file := mem_files.mpr member
  have pathFits := shorts _ file
  rw [length_filepath, folderOf_length]
  exact ⟨by simp only at pathFits ⊢; omega, some_text _ file⟩

theorem list_content_stops (calm : s.faults = [])
    (asked : Asked env .listContent [username, usernameFolder] fecha acknowledgements input writes)
    (fit : (beforeEnd acknowledgements).length < 256)
    (folder : Folder s.tree usernameFolder entries)
    (some_text : ∀ file ∈ files entries, file.2 ≠ [])
    (unfit : 255 < (files entries).length ∨ ∃ file ∈ files entries,
      1024 ≤ 13 + usernameFolder.length + file.1.length) (c : Conn) :
    (tratarMensaje env).run (Conn.accepted s input writes) ≠ .ok () c := by
  obtain ⟨s', tree, calm', ran⟩ := @run_listContent s username _ _ calm folder.opens folder.short
  have some_content : ∀ e ∈ entries, ∀ content, e.2 = .file content → content ≠ [] := by
    rintro ⟨dName, _⟩ member content rfl
    exact some_text (dName, content) (mem_files.mpr member)
  have overflows : 255 < (regularEntries entries).length ∨ ∃ e ∈ entries, ∃ content,
      e.2 = .file content ∧ 1024 ≤ (folderOf usernameFolder ++ ascii "/" ++ e.1).length := by
    refine unfit.imp (fun many => length_files entries ▸ many) ?_
    rintro ⟨⟨dName, content⟩, member, long⟩
    refine ⟨(dName, .file content), mem_files.mp member, content, rfl, ?_⟩
    rw [length_filepath, folderOf_length]
    simp only at long ⊢
    omega
  have stops : NeverReturns (Talking s'.tree acknowledgements [ascii "0" ++ [0]])
      (listarContenido env (contentReply usernameFolder entries)) :=
    Gives.neverReturns (gives_leerCampo fit)
      (neverReturns_enviarContenido env (tree ▸ folder) some_content overflows)
  exact asked.stops ran calm' rfl stops c

/-- LIST_CONTENT sends what it should just when the folder has one file, and it fits. -/
theorem content_exact_iff (calm : s.faults = [])
    (opens : s.tree.opendir (folderOf usernameFolder) = some entries)
    (some_text : ∀ file ∈ files entries, file.2 ≠ [])
    (asked : Asked env .listContent [username, usernameFolder] fecha acknowledgements input writes)
    (fit : (beforeEnd acknowledgements).length < 256) :
    (∃ c, (tratarMensaje env).run (Conn.accepted s input writes) = .ok () c ∧
      ContentExact entries c.sent) ↔
      usernameFolder.length < 38 ∧ ∃ dName content, files entries = [(dName, content)] ∧
        13 + usernameFolder.length + dName.length < 1024 ∧ (0 : UInt8) ∉ firstLine content ∧
          dName.length + 2 + (firstLine content).length ≤ 1023 := by
  constructor
  · rintro ⟨c, finished, records, same, sent⟩
    by_cases short : usernameFolder.length < 38
    · by_cases unfit : 255 < (files entries).length ∨ ∃ file ∈ files entries,
          1024 ≤ 13 + usernameFolder.length + file.1.length
      · exact absurd finished (list_content_stops calm asked fit ⟨short, opens⟩ some_text unfit c)
      · push Not at unfit
        obtain ⟨inside, shorts⟩ := unfit
        obtain ⟨c', finished', sent', -⟩ := list_content_sends calm asked fit
          ⟨short, opens⟩ inside (listable_of_files some_text shorts)
        cases finished.symm.trans finished'
        rw [sent'] at sent
        obtain ⟨count, messages⟩ := List.cons.inj (List.cons.inj sent).2
        have one := (countMessage_exact inside).mp count
        obtain ⟨⟨dName, content⟩, only⟩ := List.length_eq_one_iff.mp one
        rw [only, List.map_singleton] at messages same
        rw [List.perm_singleton.mp same, List.map_singleton] at messages
        obtain ⟨clean, recordFits⟩ := fileMessage_eq_record.mp (List.cons.inj messages).1
        have pathFits := shorts (dName, content) (only ▸ List.mem_singleton_self _)
        exact ⟨short, dName, content, only, pathFits, clean, recordFits⟩
    · have ran := run_listContentServ calm username usernameFolder
      rw [if_pos (not_lt.mp short)] at ran
      have stopped : (serve (Operacion.listContent.request [username, usernameFolder])).run s =
          .error .overflow s := by
        show (serve (.listContent username usernameFolder)).run s = _
        rw [serve, EStateM.run_bind, ran]
      exact absurd finished (asked.stops_of_error stopped c)
  · rintro ⟨short, dName, content, only, pathFits, clean, recordFits⟩
    have shorts : ∀ file ∈ files entries, 13 + usernameFolder.length + file.1.length < 1024 := by
      rw [only]
      exact fun file member => List.mem_singleton.mp member ▸ pathFits
    obtain ⟨c, finished, sent, -⟩ := list_content_sends calm asked fit ⟨short, opens⟩
      (by rw [only]; simp) (listable_of_files some_text shorts)
    refine ⟨c, finished, [record dName content], by rw [only]; rfl, ?_⟩
    rw [sent, only, List.map_singleton, List.map_singleton,
      fileMessage_eq_record.mpr ⟨clean, recordFits⟩, List.length_singleton,
      (countMessage_exact (by decide)).mpr rfl]

end Content

def anaOnce : List Request := anaConnected ++ [.publish (ascii "ana") (ascii "notes") (ascii "first")]

theorem content_exact_iff_ana :
    ∃ c, (tratarMensaje answering).run (Conn.accepted ⟨treeAfter firstStart anaOnce, [], []⟩
        (reads (ascii "LIST_CONTENT\x00ana\x00ana\x0010:00\x00OK\x00")) []) = .ok () c ∧
      ContentExact [(ascii "notes.txt", .file (ascii "first\n"))] c.sent := by
  have opens : (treeAfter firstStart anaOnce).opendir (folderOf (ascii "ana")) =
      some [(ascii "notes.txt", .file (ascii "first\n"))] := by decide +kernel
  generalize treeAfter firstStart anaOnce = t at opens ⊢
  have asked : Asked answering .listContent [ascii "ana", ascii "ana"] (ascii "10:00") (ascii "OK\x00")
      (reads (ascii "LIST_CONTENT\x00ana\x00ana\x0010:00\x00OK\x00")) [] :=
    ⟨rfl, rfl, rfl, by decide, by decide, delivers_reads _⟩
  have fits : (ascii "ana").length < 38 ∧ ∃ dName content,
      files [(ascii "notes.txt", .file (ascii "first\n"))] = [(dName, content)] ∧
      13 + (ascii "ana").length + dName.length < 1024 ∧ (0 : UInt8) ∉ firstLine content ∧
        dName.length + 2 + (firstLine content).length ≤ 1023 :=
    ⟨by decide, ascii "notes.txt", ascii "first\n", rfl, by decide, by decide +kernel,
      by decide +kernel⟩
  exact (content_exact_iff (s := ⟨t, [], []⟩) rfl opens (by decide) asked (by decide)).mpr fits

/-- With two files a NUL too many follows the count. -/
theorem content_count_padded :
    ¬ ∀ (env : Surroundings) (s : Sys) (input : List ReadResult) (writes : List WriteResult)
      (username usernameFolder fecha acknowledgements : Bytes) (entries : List (Name × Node)),
      Reachable s.tree → s.faults = [] →
      s.tree.opendir (folderOf usernameFolder) = some entries →
      (∀ file ∈ files entries, file.2 ≠ []) →
      Asked env .listContent [username, usernameFolder] fecha acknowledgements input writes →
      (beforeEnd acknowledgements).length < 256 →
      ∃ c, (tratarMensaje env).run (Conn.accepted s input writes) = .ok () c ∧
        ContentExact entries c.sent := by
  intro always
  have reached : Reachable (treeAfter firstStart
      (anaOnce ++ [.publish (ascii "ana") (ascii "more") (ascii "second")])) :=
    reachable_treeAfter (by decide) (by decide +kernel)
  have opens : (treeAfter firstStart
      (anaOnce ++ [.publish (ascii "ana") (ascii "more") (ascii "second")])).opendir
        (folderOf (ascii "ana")) =
      some [(ascii "more.txt", .file (ascii "second\n")), (ascii "notes.txt", .file (ascii "first\n"))] := by
    decide +kernel
  generalize treeAfter firstStart
    (anaOnce ++ [.publish (ascii "ana") (ascii "more") (ascii "second")]) = t at reached opens
  have asked : Asked answering .listContent [ascii "ana", ascii "ana"] (ascii "10:00") (ascii "OK\x00")
      (reads (ascii "LIST_CONTENT\x00ana\x00ana\x0010:00\x00OK\x00")) [] :=
    ⟨rfl, rfl, rfl, by decide, by decide, delivers_reads _⟩
  have fits : ∀ e ∈ [(ascii "more.txt", Node.file (ascii "second\n")),
      (ascii "notes.txt", .file (ascii "first\n"))], Listable (folderOf (ascii "ana")) e := by
    rintro e member content isFile
    simp only [List.mem_cons, List.not_mem_nil, or_false] at member
    rcases member with rfl | rfl
    · cases isFile
      decide
    · cases isFile
      decide
  obtain ⟨c, finished, records, -, sent⟩ := always answering ⟨t, [], []⟩ _ _ _ _ _ _ _ reached rfl
    opens (by decide) asked (by decide)
  obtain ⟨c', finished', sent', -⟩ := list_content_sends (s := ⟨t, [], []⟩) rfl asked (by decide)
    ⟨by decide, opens⟩ (by decide) fits
  cases finished.symm.trans finished'
  rw [sent'] at sent
  exact absurd (List.cons.inj (List.cons.inj sent).2).1 (by decide)

end DistrApp.Server
