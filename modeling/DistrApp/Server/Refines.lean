import DistrApp.Directory
import DistrApp.Server.Disconnect
import DistrApp.Server.Frame
import DistrApp.Server.Registered

/-!
# The store refines the directory

Users are the folders in `usuarios`, files are the regular files `f.txt` in
them.  For names that are plain components and fit the path buffers, every run
of requests does to the folders what the directory operations do to the map,
with the matching replies.  The words that CONNECT and PUBLISH scan the table
for must fit the arrays they are read into; `ScanFits` says so of one request.
-/

set_option autoImplicit false

namespace DistrApp.Server

open Text FileTree Effects

abbrev Users := Directory Bytes Bytes Bytes

/-- The reserved word that PUBLISH refuses. -/
def notfound : Bytes := ascii "notfound"

def FileName (fileName : Bytes) : Prop :=
  fileName ≠ [] ∧ slash ∉ fileName ∧ fileName ≠ notfound

/-- The names are plain components and fit the path buffers of the operation. -/
def NamesFit : Request → Prop
  | .register username => ProperName username ∧ username.length ≤ 256
  | .unregister username => ProperName username ∧ username.length < 244
  | .connect username _ _ => ProperName username ∧ username.length < 244
  | .disconnect username => ProperName username ∧ username.length < 244
  | .publish username fileName _ => ProperName username ∧ FileName fileName ∧
      username.length < 38 ∧ username.length + fileName.length < 83
  | .delete username fileName => ProperName username ∧ FileName fileName ∧
      username.length < 48 ∧ username.length + fileName.length < 239
  | .listUsers username => ProperName username ∧ username.length < 8
  | .listContent _ usernameFolder => ProperName usernameFolder ∧ usernameFolder.length < 38

/-- Every word of the table that the request's `fscanf` reads fits its array. -/
def ScanFits (t : FileTree) : Request → Prop
  | .connect username _ _ =>
      ∀ text, table t = some text → scanWords 256 username (words text) ≠ none
  | .publish username _ _ =>
      ∀ text, table t = some text → scanWords 100 username (words text) ≠ none
  | _ => True

def FolderHolds (t : FileTree) (username : Bytes) (files : Bytes → Option Bytes) : Prop :=
  ∀ name n, t.node (usuarios t ++ [username, name]) = some n ↔
    ∃ f text, name = f ++ ascii ".txt" ∧ files f = some text ∧ n = .file (text ++ [newline])

def UserStored (t : FileTree) (username : Bytes) : Option (Bytes → Option Bytes) → Prop
  | none => t.node (usuarios t ++ [username]) = none
  | some files => t.node (usuarios t ++ [username]) = some .dir ∧ FolderHolds t username files ∧
      ∀ f, files f ≠ none → username.length + f.length < 83

/-- The folders in `usuarios` are the map; the server's own files are in place. -/
structure Represents (t : FileTree) (m : Users) : Prop where
  rooted : Rooted t
  tableThere : ∃ text, table t = some text
  tempFree : t.node (tempPath t) ≠ some .dir
  stored : ∀ username, ProperName username → UserStored t username (m username)

def applyRequest (m : Users) : Request → Users
  | .register username => (m.register username).2
  | .unregister username => (m.unregister username).2
  | .publish username fileName description => (m.publish username fileName description).2
  | .delete username fileName => (m.delete username fileName).2
  | _ => m

def code (conflict : Bytes) : Directory.Verdict → Bytes
  | .done => ascii "0"
  | .refused => ascii "1"
  | .conflict => conflict

/-- The reply is the one the map calls for. -/
def Answers (m : Users) : Request → Reply → Prop
  | .register username, reply => reply.res = code (ascii "3") (m.register username).1
  | .unregister username, reply => reply.res = code (ascii "3") (m.unregister username).1
  | .publish username fileName description, reply =>
      reply.res = code (ascii "3") (m.publish username fileName description).1
  | .delete username fileName, reply => reply.res = code (ascii "3") (m.delete username fileName).1
  | .listContent _ usernameFolder, reply => ∀ files, m usernameFolder = some files →
      reply.res = ascii "0" ∧ reply.res2 = some (Directory.fileCount files : Int)
  | _, _ => True

/-! ## What a change of the tree leaves of the representation -/

section Updates
variable {t t' : FileTree} {m : Users}

theorem usuarios_dir (rep : Represents t m) : t.node (usuarios t) = some .dir := by
  obtain ⟨text, here⟩ := rep.tableThere
  exact usuarios_isDir (table_eq_some.mp here)

theorem cwd_ne_folder {t : FileTree} (username : Bytes) : t.cwd ≠ usuarios t ++ [username] := by
  intro same
  have lengths := congrArg List.length same
  simp only [usuarios, List.length_append, List.length_dropLast, List.length_singleton] at lengths
  omega

theorem cwd_ne_entry {t : FileTree} (username name : Bytes) :
    t.cwd ≠ usuarios t ++ [username, name] := by
  intro same
  have lengths := congrArg List.length same
  simp only [usuarios, List.length_append, List.length_dropLast, List.length_cons,
    List.length_nil] at lengths
  omega

theorem Represents.update (rep : Represents t m) {username : Bytes} (proper : ProperName username)
    (only : OnlyFolder t username t') {entry : Option (Bytes → Option Bytes)}
    (stored : UserStored t' username entry) :
    Represents t' (Function.update m username entry) := by
  have same := usuarios_congr only.cwd
  refine ⟨?_, ?_, ?_, ?_⟩
  · rw [Rooted, only.cwd, only.outside _ (cwd_ne_folder username) (cwd_ne_entry username)]
    exact rep.rooted
  · rw [only.table_eq]
    exact rep.tableThere
  · rw [tempPath_congr only.cwd, only.outside _ (child_ne_temp proper).symm ?_]
    · exact rep.tempFree
    · intro name equal
      have names := List.append_cancel_left equal
      simp at names
  · intro other properOther
    by_cases this : other = username
    · subst this
      rw [Function.update_self]
      exact stored
    · rw [Function.update_of_ne this]
      have before := rep.stored other properOther
      have folder : t'.node (usuarios t' ++ [other]) = t.node (usuarios t ++ [other]) := by
        rw [same]
        apply only.outside
        · intro equal
          exact this (List.singleton_inj.mp (List.append_cancel_left equal))
        · intro name equal
          have names := List.append_cancel_left equal
          simp at names
      have entries : ∀ name, t'.node (usuarios t' ++ [other, name]) =
          t.node (usuarios t ++ [other, name]) := by
        intro name
        rw [same]
        apply only.outside
        · intro equal
          have names := List.append_cancel_left equal
          simp at names
        · intro name' equal
          have names := List.append_cancel_left equal
          simp only [List.cons.injEq, and_true] at names
          exact this names.1
      cases held : m other with
      | none =>
          rw [held] at before
          simp only [UserStored] at before ⊢
          rw [folder, before]
      | some files =>
          rw [held] at before
          simp only [UserStored, FolderHolds] at before ⊢
          refine ⟨folder.trans before.1, fun name n => ?_, before.2.2⟩
          rw [entries]
          exact before.2.1 name n

theorem Represents.own_files (rep : Represents t m) (cwd : t'.cwd = t.cwd)
    (tableNow : ∃ text, t'.node (tablePath t) = some (.file text))
    (tempNow : t'.node (tempPath t) ≠ some .dir)
    (others : ∀ q, q ≠ tablePath t → q ≠ tempPath t → t'.node q = t.node q) :
    Represents t' m := by
  have same := usuarios_congr cwd
  refine ⟨?_, ?_, ?_, ?_⟩
  · rw [Rooted, cwd, others _ (cwd_ne_folder _) (cwd_ne_folder _)]
    exact rep.rooted
  · obtain ⟨text, here⟩ := tableNow
    exact ⟨text, table_of_node_file cwd here⟩
  · rw [tempPath_congr cwd]
    exact tempNow
  · intro username proper
    have before := rep.stored username proper
    have folder : t'.node (usuarios t' ++ [username]) = t.node (usuarios t ++ [username]) := by
      rw [same]
      exact others _ (child_ne_table proper) (child_ne_temp proper)
    have entries : ∀ name, t'.node (usuarios t' ++ [username, name]) =
        t.node (usuarios t ++ [username, name]) := by
      intro name
      rw [same]
      apply others <;>
        · intro equal
          have names := List.append_cancel_left equal
          simp at names
    cases held : m username with
    | none =>
        rw [held] at before
        simp only [UserStored] at before ⊢
        rw [folder, before]
    | some files =>
        rw [held] at before
        simp only [UserStored, FolderHolds] at before ⊢
        refine ⟨folder.trans before.1, fun name n => ?_, before.2.2⟩
        rw [entries]
        exact before.2.1 name n

end Updates

/-! ## The operations -/

/-- The request is answered as the map demands and leaves the map's successor. -/
def Simulates (s : Sys) (m : Users) (request : Request) : Prop :=
  ∃ reply s', (serve request).run s = .ok reply s' ∧ s'.faults = [] ∧ Answers m request reply ∧
    Represents s'.tree (applyRequest m request)

section Operations
variable {s : Sys} {m : Users} {username fileName : Bytes}

theorem onlyFolder_of_run {s' : Sys} {op : Op Bytes} {res : Bytes}
    (preserves : Preserves (Framed s.tree username) op fun _ => True)
    (ran : op.run s = .ok res s') : OnlyFolder s.tree username s'.tree := by
  have framed := (preserves s (OnlyFolder.refl s.tree username)).1
  rw [ran] at framed
  exact framed

theorem access_user (rep : Represents s.tree m) (proper : ProperName username) :
    s.tree.access (folderOf username) = (m username).isSome := by
  rw [access_name rep.rooted proper.1]
  have stored := rep.stored username proper
  cases held : m username with
  | none => rw [held] at stored; simp only [UserStored] at stored; rw [stored]; rfl
  | some files => rw [held] at stored; rw [stored.1]; rfl

theorem find_file {t : FileTree} (rooted : Rooted t) (proper : ProperName username)
    (dir : t.node (usuarios t ++ [username]) = some .dir) (plain : slash ∉ fileName) :
    t.resolve (fileOf (folderOf username) fileName) =
        some (usuarios t ++ [username, fileName ++ ascii ".txt"]) ∧
      (fileOf (folderOf username) fileName).getLast? ≠ some slash := by
  have valid := valid_txt plain
  have folder : t.resolve (folderOf username) = some (usuarios t ++ [username]) := by
    rw [resolve_name rooted proper.1, if_pos (usuarios_isDir dir)]
  rw [fileOf_eq]
  constructor
  · rw [resolve_append_slash t (folderOf_ne_nil username), folder, Option.bind_some,
      components_valid valid]
    simp [walk, dir, enter_valid valid]
  · rw [← List.singleton_append, ← List.append_assoc]
    exact getLast?_name_ne_slash valid _

theorem txt_injective {f g : Bytes} : f ++ ascii ".txt" = g ++ ascii ".txt" ↔ f = g :=
  List.append_left_inj _

theorem node_file {t : FileTree} {files : Bytes → Option Bytes}
    (holds : FolderHolds t username files) :
    t.node (usuarios t ++ [username, fileName ++ ascii ".txt"]) =
      (files fileName).map fun text => .file (text ++ [newline]) := by
  apply Option.ext
  intro n
  rw [holds, Option.map_eq_some_iff]
  constructor
  · rintro ⟨f, text, same, held, rfl⟩
    rw [txt_injective] at same
    exact ⟨text, same ▸ held, rfl⟩
  · rintro ⟨text, held, rfl⟩
    exact ⟨fileName, text, rfl, held, rfl⟩

theorem child_append {t : FileTree} (username name : Bytes) :
    usuarios t ++ [username] ++ [name] = usuarios t ++ [username, name] := by
  rw [List.append_assoc]
  rfl

theorem openRead_table (rep : Represents s.tree m) :
    ∃ text, table s.tree = some text ∧
      s.tree.openRead conectadosTxt = some (tablePath s.tree, text) := by
  obtain ⟨text, here⟩ := rep.tableThere
  refine ⟨text, here, ?_⟩
  rw [openRead, find_table rep.rooted, table_eq_some.mp here]
  rfl

theorem simulates_register (calm : s.faults = []) (rep : Represents s.tree m)
    (fits : NamesFit (.register username)) : Simulates s m (.register username) := by
  obtain ⟨proper, sized⟩ := fits
  have ran := run_registerServ calm username
  have nonempty : 0 < username.length := List.length_pos_of_ne_nil proper.1.1
  rw [if_neg (by omega), access_user rep proper] at ran
  have stored := rep.stored username proper
  cases held : m username with
  | some files =>
      rw [held] at ran
      refine ⟨_, s, run_answer_ok ran, calm, ?_, ?_⟩
      · simp [Answers, Directory.register, held, code]
      · simp only [applyRequest, Directory.register, held]
        exact rep
  | none =>
      rw [held] at ran stored
      have absent : s.tree.node (usuarios s.tree ++ [username]) = none := stored
      have place : s.tree.resolve (folderOf username) = some (usuarios s.tree ++ [username]) := by
        rw [resolve_name rep.rooted proper.1, if_pos (usuarios_dir rep)]
      have made : s.tree.mkdir (folderOf username) =
          some (s.tree.put (usuarios s.tree ++ [username]) .dir) := by
        simp only [FileTree.mkdir, place, absent, if_true]
      rw [made] at ran
      have only := onlyFolder_of_run (preserves_registerServ proper.1) ran
      have fit : s.tree.Placeable (usuarios s.tree ++ [username]) :=
        placeable_of_resolve place (by rw [absent]; simp)
      refine ⟨_, _, run_answer_ok ran, calm, ?_, ?_⟩
      · simp [Answers, Directory.register, held, code]
      · simp only [applyRequest, Directory.register, held]
        apply rep.update proper only
        simp only [UserStored, usuarios_congr only.cwd]
        refine ⟨node_put_self fit _, fun name n => ?_, fun f absurdity => absurd rfl absurdity⟩
        rw [usuarios_congr only.cwd, node_put_ne _ _ (by simp)]
        constructor
        · intro here
          rw [← child_append] at here
          have parent := (node_parent (t := s.tree) (by rw [here]; simp)).1
          rw [absent] at parent
          cases parent
        · rintro ⟨_, _, _, absurdity, _⟩
          cases absurdity

theorem simulates_unregister (calm : s.faults = []) (rep : Represents s.tree m)
    (fits : NamesFit (.unregister username)) : Simulates s m (.unregister username) := by
  obtain ⟨proper, short⟩ := fits
  have stored := rep.stored username proper
  cases held : m username with
  | none =>
      rw [held] at stored
      have absent : s.tree.opendir (folderOf username) = none := by
        rw [opendir_name rep.rooted proper.1, if_neg]
        rw [show s.tree.node (usuarios s.tree ++ [username]) = none from stored]
        simp
      refine ⟨_, s, run_answer_ok (run_unregisterServ_absent calm short absent), calm, ?_, ?_⟩
      · simp [Answers, Directory.unregister, held, code]
      · simp only [applyRequest, Directory.unregister, held]
        exact rep
  | some files =>
      rw [held] at stored
      obtain ⟨dir, holds, small⟩ := stored
      have found : s.tree.find (folderOf username) = some (usuarios s.tree ++ [username], .dir) := by
        rw [find_name rep.rooted proper.1, dir]
        rfl
      have entry : ∀ {name : Bytes} {n : Node},
          s.tree.node (usuarios s.tree ++ [username] ++ [name]) = some n →
            ∃ f text, name = f ++ ascii ".txt" ∧ files f = some text ∧
              n = .file (text ++ [newline]) := by
        intro name n here
        rw [child_append] at here
        exact (holds name n).mp here
      obtain ⟨t₁, emptied, handles, ran⟩ := run_unregisterServ calm short found (by
        intro name content here
        obtain ⟨f, text, rfl, published, _⟩ := entry here
        have bound := small f (by rw [published]; simp)
        rw [List.length_append, show (ascii ".txt").length = 4 by decide]
        omega)
      have found₁ : t₁.find (folderOf username) = some (usuarios s.tree ++ [username], .dir) := by
        have rooted₁ := (rooted_congr emptied.dirs).mpr rep.rooted
        have dir₁ := (emptied.dirs.dirs _).mpr dir
        rw [find_name rooted₁ proper.1, usuarios_congr emptied.dirs.cwd, dir₁]
        rfl
      have bare : t₁.entries (usuarios s.tree ++ [username]) = [] := by
        rw [List.eq_nil_iff_forall_not_mem]
        rintro ⟨name, n⟩ listed
        rw [mem_entries] at listed
        by_cases before : ∃ content,
            s.tree.node (usuarios s.tree ++ [username] ++ [name]) = some (.file content)
        · obtain ⟨content, here⟩ := before
          rw [emptied.gone name content here] at listed
          cases listed
        · rw [emptied.others _ ?_] at listed
          · obtain ⟨_, _, _, _, rfl⟩ := entry listed
            exact before ⟨_, listed⟩
          · intro name' content same here
            exact before ⟨content, same ▸ here⟩
      have last : (components (folderOf username)).getLast? = some username := by
        rw [components_folderOf, components_valid proper.1]
        rfl
      have free : t₁.Removable (usuarios s.tree ++ [username]) := ⟨by simp, bare⟩
      have removed : t₁.rmdir (folderOf username) =
          some (t₁.erase (usuarios s.tree ++ [username])) := by
        rw [FileTree.rmdir, found₁]
        simp only [last, Option.some.injEq, ne_eq]
        rw [if_pos ⟨proper.1.2.1, proper.1.2.2.1, free⟩]
      rw [removed] at ran
      have only := onlyFolder_of_run (preserves_unregisterServ proper.1) ran
      refine ⟨_, _, run_answer_ok ran, calm, ?_, ?_⟩
      · simp [Answers, Directory.unregister, held, code]
      · simp only [applyRequest, Directory.unregister, held]
        apply rep.update proper only
        simp only [UserStored, usuarios_congr only.cwd]
        exact node_erase_self free

theorem access_file {t : FileTree} {files : Bytes → Option Bytes} (rooted : Rooted t)
    (proper : ProperName username) (dir : t.node (usuarios t ++ [username]) = some .dir)
    (holds : FolderHolds t username files) (plain : slash ∉ fileName) :
    t.access (fileOf (folderOf username) fileName) = (files fileName).isSome := by
  obtain ⟨resolved, noSlash⟩ := find_file rooted proper dir plain
  rw [FileTree.access, FileTree.find, resolved, Option.bind_some, node_file holds]
  cases files fileName <;> simp [noSlash]

theorem folderHolds_update {t t' : FileTree} {files : Bytes → Option Bytes} (cwd : t'.cwd = t.cwd)
    (holds : FolderHolds t username files) {entry : Option Bytes}
    (changed : ChangesOnly (usuarios t ++ [username, fileName ++ ascii ".txt"]) t t')
    (now : t'.node (usuarios t ++ [username, fileName ++ ascii ".txt"]) =
      entry.map fun text => .file (text ++ [newline])) :
    FolderHolds t' username (Function.update files fileName entry) := by
  intro name n
  rw [usuarios_congr cwd]
  by_cases this : name = fileName ++ ascii ".txt"
  · subst this
    rw [now, Option.map_eq_some_iff]
    constructor
    · rintro ⟨text, held, rfl⟩
      exact ⟨fileName, text, rfl, by rw [Function.update_self, held], rfl⟩
    · rintro ⟨f, text, same, held, rfl⟩
      rw [txt_injective] at same
      subst same
      rw [Function.update_self] at held
      exact ⟨text, held, rfl⟩
  · rw [changed.others _ (by simpa using this), holds]
    constructor
    · rintro ⟨f, text, rfl, held, rfl⟩
      have different : f ≠ fileName := fun same => this (txt_injective.mpr same)
      exact ⟨f, text, rfl, by rw [Function.update_of_ne different, held], rfl⟩
    · rintro ⟨f, text, rfl, held, rfl⟩
      have different : f ≠ fileName := fun same => this (txt_injective.mpr same)
      rw [Function.update_of_ne different] at held
      exact ⟨f, text, rfl, held, rfl⟩

theorem simulates_publish (calm : s.faults = []) (rep : Represents s.tree m) {description : Bytes}
    (fits : NamesFit (.publish username fileName description))
    (scan : ScanFits s.tree (.publish username fileName description)) :
    Simulates s m (.publish username fileName description) := by
  obtain ⟨proper, ⟨_, plain, notReserved⟩, short, shortFile⟩ := fits
  have ran := run_publishServ calm username fileName description
  rw [if_neg (by omega), access_user rep proper] at ran
  have stored := rep.stored username proper
  cases held : m username with
  | none =>
      rw [held] at ran
      refine ⟨_, s, run_answer_ok ran, calm, ?_, ?_⟩
      · simp [Answers, Directory.publish, held, code]
      · simp only [applyRequest, Directory.publish, held]
        exact rep
  | some files =>
      rw [held] at ran stored
      obtain ⟨dir, holds, small⟩ := stored
      rw [access_file rep.rooted proper dir holds plain] at ran
      cases published : files fileName with
      | some text =>
          rw [published] at ran
          refine ⟨_, s, run_answer_ok ran, calm, ?_, ?_⟩
          · simp [Answers, Directory.publish, held, published, code]
          · simp only [applyRequest, Directory.publish, held, published, reduceCtorEq, if_false]
            exact rep
      | none =>
          obtain ⟨text, tableNow, read⟩ := openRead_table rep
          obtain ⟨found, scanned⟩ := Option.ne_none_iff_exists'.mp (scan text tableNow)
          obtain ⟨resolved, noSlash⟩ := find_file rep.rooted proper dir plain
          have absent := @node_file username fileName _ files holds
          rw [published, Option.map_none] at absent
          have free : s.tree.creatable (fileOf (folderOf username) fileName) =
              some (usuarios s.tree ++ [username, fileName ++ ascii ".txt"]) := by
            simp only [creatable, resolved, absent, noSlash, reduceCtorEq, or_self, if_false]
          obtain ⟨_, _, fit⟩ := creatable_some free
          have created : s.tree.openWrite (fileOf (folderOf username) fileName) =
              some (usuarios s.tree ++ [username, fileName ++ ascii ".txt"],
                s.tree.put (usuarios s.tree ++ [username, fileName ++ ascii ".txt"])
                  (.file [])) := by
            rw [openWrite, free]
            rfl
          simp only [published, read, scanned, created, Option.isSome_some, Option.isSome_none,
            Bool.not_true, Bool.false_eq_true, if_false] at ran
          rw [if_neg (show fileName ≠ ascii "notfound" from notReserved)] at ran
          have only := onlyFolder_of_run (preserves_publishServ proper.1 plain description) ran
          have changed := (put_changesOnly s.tree (usuarios s.tree ++
            [username, fileName ++ ascii ".txt"]) (.file [])).trans
              (append_changesOnly _ _ (description ++ [newline]))
          refine ⟨_, _, run_answer_ok ran, calm, ?_, ?_⟩
          · simp [Answers, Directory.publish, held, published, code]
          · simp only [applyRequest, Directory.publish, held, published, if_true]
            apply rep.update proper only
            refine ⟨?_, ?_, ?_⟩
            · rw [usuarios_congr only.cwd, changed.others _ (by simp), dir]
            · exact folderHolds_update only.cwd holds changed (node_append (node_put_self fit _) _)
            · intro f filed
              by_cases same : f = fileName
              · subst same
                exact shortFile
              · rw [Function.update_of_ne same] at filed
                exact small f filed

theorem simulates_delete (calm : s.faults = []) (rep : Represents s.tree m)
    (fits : NamesFit (.delete username fileName)) : Simulates s m (.delete username fileName) := by
  obtain ⟨proper, ⟨nonempty, plain, _⟩, short, shortFile⟩ := fits
  have ran := run_deleteServ calm username fileName
  have positive := List.length_pos_of_ne_nil nonempty
  rw [if_neg (by omega), if_neg (by omega), access_user rep proper] at ran
  have stored := rep.stored username proper
  cases held : m username with
  | none =>
      rw [held] at ran
      refine ⟨_, s, run_answer_ok ran, calm, ?_, ?_⟩
      · simp [Answers, Directory.delete, held, code]
      · simp only [applyRequest, Directory.delete, held]
        exact rep
  | some files =>
      rw [held] at ran stored
      obtain ⟨dir, holds, small⟩ := stored
      obtain ⟨text, _, read⟩ := openRead_table rep
      have longer : ¬ 239 ≤ username.length + fileName.length := by omega
      simp only [read, longer, Option.isSome_some, Bool.not_true, Bool.false_eq_true,
        if_false] at ran
      obtain ⟨resolved, noSlash⟩ := find_file rep.rooted proper dir plain
      have here := @node_file username fileName _ files holds
      cases published : files fileName with
      | none =>
          rw [published, Option.map_none] at here
          have missing : s.tree.remove (fileOf (folderOf username) fileName) = none := by
            simp [FileTree.remove, FileTree.find, resolved, here]
          rw [missing] at ran
          refine ⟨_, _, run_answer_ok ran, calm, ?_, ?_⟩
          · simp [Answers, Directory.delete, held, published, code]
          · simp only [applyRequest, Directory.delete, held, published, if_true]
            exact rep
      | some description =>
          rw [published, Option.map_some] at here
          have removed : s.tree.remove (fileOf (folderOf username) fileName) =
              some (s.tree.erase (usuarios s.tree ++ [username, fileName ++ ascii ".txt"])) := by
            simp [FileTree.remove, FileTree.find, resolved, here, noSlash]
          rw [removed] at ran
          have only := onlyFolder_of_run (preserves_deleteServ proper.1 plain) ran
          have changed := erase_changesOnly s.tree
            (usuarios s.tree ++ [username, fileName ++ ascii ".txt"])
          refine ⟨_, _, run_answer_ok ran, calm, ?_, ?_⟩
          · simp [Answers, Directory.delete, held, published, code]
          · simp only [applyRequest, Directory.delete, held, published, reduceCtorEq, if_false]
            apply rep.update proper only
            refine ⟨?_, ?_, ?_⟩
            · rw [usuarios_congr only.cwd, changed.others _ (by simp), dir]
            · exact folderHolds_update only.cwd holds changed
                (node_erase_self (removable_of_file here))
            · intro f filed
              by_cases same : f = fileName
              · subst same
                rw [Function.update_self] at filed
                exact absurd rfl filed
              · rw [Function.update_of_ne same] at filed
                exact small f filed

theorem regularEntries_length {t : FileTree} {files : Bytes → Option Bytes}
    (holds : FolderHolds t username files) :
    (regularEntries (t.entries (usuarios t ++ [username]))).length = Directory.fileCount files := by
  let listed := regularEntries (t.entries (usuarios t ++ [username]))
  have mem_listed : ∀ {name : Name} {n : Node}, (name, n) ∈ listed ↔
      ∃ f text, name = f ++ ascii ".txt" ∧ files f = some text ∧ n = .file (text ++ [newline]) := by
    intro name n
    rw [← holds name n]
    simp only [listed, regularEntries, List.mem_filter, mem_entries, child_append]
    constructor
    · exact And.left
    · intro here
      obtain ⟨_, _, _, _, rfl⟩ := (holds name n).mp here
      exact ⟨here, by simp⟩
  let nameOf : Name × Node → Bytes := fun e => e.1.dropLast.dropLast.dropLast.dropLast
  have strip : ∀ f : Bytes, (f ++ ascii ".txt").dropLast.dropLast.dropLast.dropLast = f := by
    intro f
    rw [show ascii ".txt" = [46, 116, 120, 116] by decide]
    simp
  have distinct : (listed.map nameOf).Nodup := by
    have names : (listed.map Prod.fst).Nodup :=
      (entries_names_nodup t _).sublist (List.filter_sublist.map Prod.fst)
    rw [List.nodup_map_iff_inj_on (List.Nodup.of_map _ names)]
    rintro ⟨a, na⟩ memberA ⟨b, nb⟩ memberB same
    obtain ⟨f, text, rfl, held, rfl⟩ := mem_listed.mp memberA
    obtain ⟨g, text', rfl, held', rfl⟩ := mem_listed.mp memberB
    simp only [nameOf, strip] at same
    subst same
    rw [held, Option.some.injEq] at held'
    rw [held']
  have all : ∀ f, f ∈ listed.map nameOf ↔ files f ≠ none := by
    intro f
    rw [List.mem_map, Option.ne_none_iff_exists']
    constructor
    · rintro ⟨⟨a, na⟩, member, rfl⟩
      obtain ⟨f, text, rfl, held, rfl⟩ := mem_listed.mp member
      exact ⟨text, by simp only [nameOf, strip]; exact held⟩
    · rintro ⟨text, held⟩
      exact ⟨_, mem_listed.mpr ⟨f, text, rfl, held, rfl⟩, strip f⟩
  rw [Directory.fileCount_eq_length distinct all, List.length_map]

theorem simulates_listContent (calm : s.faults = []) (rep : Represents s.tree m)
    {usernameFolder : Bytes} (fits : NamesFit (.listContent username usernameFolder)) :
    Simulates s m (.listContent username usernameFolder) := by
  obtain ⟨proper, short⟩ := fits
  have ran : (serve (.listContent username usernameFolder)).run s = _ :=
    EStateM.run_bind (listContentServ username usernameFolder) _
  rw [run_listContentServ calm, if_neg (by omega), opendir_name rep.rooted proper.1] at ran
  have stored := rep.stored usernameFolder proper
  cases held : m usernameFolder with
  | none =>
      rw [held] at stored
      rw [show s.tree.node (usuarios s.tree ++ [usernameFolder]) = none from stored] at ran
      refine ⟨_, s, ran, calm, ?_, rep⟩
      intro files absurdity
      rw [held] at absurdity
      cases absurdity
  | some files =>
      rw [held] at stored
      obtain ⟨dir, holds, _⟩ := stored
      rw [dir, if_pos rfl] at ran
      refine ⟨_, _, ran, calm, ?_, rep⟩
      intro files' same
      rw [held, Option.some.injEq] at same
      subst same
      exact ⟨rfl, by rw [regularEntries_length holds]⟩

theorem simulates_listUsers (calm : s.faults = []) (rep : Represents s.tree m)
    (fits : NamesFit (.listUsers username)) : Simulates s m (.listUsers username) := by
  obtain ⟨proper, short⟩ := fits
  have ran : (serve (.listUsers username)).run s = _ :=
    EStateM.run_bind (listUsersServ username) _
  rw [run_listUsersServ calm, if_neg proper.1.1, if_neg (by omega)] at ran
  obtain ⟨text, _, read⟩ := openRead_table rep
  cases registered : s.tree.access (folderOf username) with
  | false =>
      rw [registered] at ran
      exact ⟨_, s, ran, calm, trivial, rep⟩
  | true =>
      rw [registered, read] at ran
      exact ⟨_, _, ran, calm, trivial, rep⟩

theorem simulates_connect (calm : s.faults = []) (rep : Represents s.tree m)
    {freePort freeServer : Bytes} (fits : NamesFit (.connect username freePort freeServer))
    (scan : ScanFits s.tree (.connect username freePort freeServer)) :
    Simulates s m (.connect username freePort freeServer) := by
  obtain ⟨proper, short⟩ := fits
  have ran := run_connectServ calm username freePort freeServer
  rw [if_neg (by omega)] at ran
  cases registered : s.tree.access (folderOf username) with
  | false =>
      rw [registered] at ran
      exact ⟨_, s, run_answer_ok ran, calm, trivial, rep⟩
  | true =>
      obtain ⟨text, here⟩ := rep.tableThere
      have file := table_eq_some.mp here
      have opened : s.tree.openAppend conectadosTxt = some (tablePath s.tree, text, s.tree) := by
        rw [openAppend, creatable_table rep.rooted, if_pos ⟨usuarios_dir rep, by rw [file]; simp⟩,
          Option.map_some, file]
      obtain ⟨found, scanned⟩ := Option.ne_none_iff_exists'.mp (scan text here)
      simp only [registered, opened, scanned, Bool.not_true, Bool.false_eq_true, if_false] at ran
      cases found with
      | true => exact ⟨_, _, run_answer_ok ran, calm, trivial, rep⟩
      | false =>
          refine ⟨_, _, run_answer_ok ran, calm, trivial, ?_⟩
          have changed := append_changesOnly s.tree (tablePath s.tree)
            (tableEntry username freeServer freePort)
          refine rep.own_files changed.cwd ⟨_, node_append file _⟩ ?_ fun q notTable _ =>
            changed.others q notTable
          rw [changed.others _ (tempPath_ne_tablePath s.tree)]
          exact rep.tempFree

theorem simulates_disconnect (calm : s.faults = []) (rep : Represents s.tree m)
    (fits : NamesFit (.disconnect username)) : Simulates s m (.disconnect username) := by
  obtain ⟨proper, short⟩ := fits
  obtain ⟨text, here⟩ := rep.tableThere
  have update : s.tree.openUpdate conectadosTxt = some (tablePath s.tree, text) :=
    openUpdate_table.mpr ⟨rep.rooted, rfl, here⟩
  have created : s.tree.openWrite tempTxt =
      some (tempPath s.tree, s.tree.put (tempPath s.tree) (.file [])) := by
    rw [openWrite, creatable_temp rep.rooted, if_pos ⟨usuarios_dir rep, rep.tempFree⟩]
    rfl
  obtain ⟨free, empty, only⟩ := openWrite_some created
  cases registered : (withTemp s.tree).access (folderOf username) with
  | false =>
      obtain ⟨handles, ran⟩ := (run_disconnectServ_absent calm short registered).2 _ update
      refine ⟨_, _, run_answer_ok ran, calm, trivial, ?_⟩
      rw [withTemp_of_some created]
      refine rep.own_files only.cwd ⟨text, ?_⟩ (by rw [empty]; simp) fun q _ notTemp =>
        only.others q notTemp
      rw [only.others _ (tempPath_ne_tablePath s.tree).symm]
      exact table_eq_some.mp here
  | true =>
      obtain ⟨t', handles, ran, swapped⟩ := run_disconnectServ calm short registered update created
      refine ⟨_, _, run_answer_ok ran, calm, trivial, ?_⟩
      exact rep.own_files swapped.cwd ⟨_, swapped.tableKept⟩ (by rw [swapped.tempGone]; simp)
        swapped.others

end Operations

/-! ## Runs -/

def Fits (t : FileTree) (request : Request) : Prop := NamesFit request ∧ ScanFits t request

theorem simulates {s : Sys} {m : Users} (calm : s.faults = []) (rep : Represents s.tree m)
    {request : Request} (fits : Fits s.tree request) : Simulates s m request := by
  obtain ⟨names, scan⟩ := fits
  cases request with
  | register username => exact simulates_register calm rep names
  | unregister username => exact simulates_unregister calm rep names
  | connect username freePort freeServer => exact simulates_connect calm rep names scan
  | disconnect username => exact simulates_disconnect calm rep names
  | publish username fileName description => exact simulates_publish calm rep names scan
  | delete username fileName => exact simulates_delete calm rep names
  | listUsers username => exact simulates_listUsers calm rep names
  | listContent username usernameFolder => exact simulates_listContent calm rep names

def FitStep (s : Sys) (event : Request × Reply) (s' : Sys) : Prop :=
  Fits s.tree event.1 ∧ (serve event.1).run s = .ok event.2 s'

def usersAfter (history : History) : Users :=
  history.foldl (fun m event => applyRequest m event.1) Directory.empty

structure EmptyStore (t : FileTree) : Prop where
  started : Started t
  tempFree : t.node (tempPath t) ≠ some .dir
  bare : ∀ username, ProperName username → t.node (usuarios t ++ [username]) = none

theorem represents_empty {t : FileTree} (bare : EmptyStore t) :
    Represents t Directory.empty :=
  ⟨bare.started.1, ⟨[], bare.started.2⟩, bare.tempFree, fun username proper =>
    bare.bare username proper⟩

/-- Along every run of requests that fit, the folders are the map, and the next
request that fits is answered as the map says. -/
theorem store_refines_directory {start s : Sys} {history : History} (bare : EmptyStore start.tree)
    (calm : start.faults = []) (run : Run FitStep start history s) :
    Represents s.tree (usersAfter history) ∧
      ∀ request, Fits s.tree request → Simulates s (usersAfter history) request := by
  have linked : s.faults = [] ∧ Represents s.tree (usersAfter history) := by
    refine run.invariant
      (P := fun history s => s.faults = [] ∧ Represents s.tree (usersAfter history))
      ⟨calm, represents_empty bare⟩ ?_
    rintro past middle ⟨request, reply⟩ later ⟨calm, rep⟩ ⟨fits, ran⟩
    obtain ⟨reply', s', ran', calm', _, rep'⟩ := simulates calm rep fits
    rw [ran'] at ran
    cases ran
    refine ⟨calm', ?_⟩
    rw [usersAfter, List.foldl_append]
    exact rep'
  exact ⟨linked.2, fun request fits => simulates linked.1 linked.2 fits⟩

theorem emptyStore_firstStart : EmptyStore firstStart := by
  refine ⟨by decide, by decide, fun username proper => ?_⟩
  by_contra present
  exact fresh_firstStart.2 username present proper

theorem words_fit {t : FileTree} {username : Bytes} {capacity : Nat} (text : Bytes)
    (there : table t = some text) (fits : scanWords capacity username (words text) ≠ none) :
    ∀ text', table t = some text' → scanWords capacity username (words text') ≠ none := by
  intro text' there'
  rw [there] at there'
  cases there'
  exact fits

def anaPublishesTwo : List Request :=
  [.register (ascii "ana"), .register (ascii "bob"),
    .connect (ascii "bob") (ascii "4001") (ascii "10.0.0.1"),
    .connect (ascii "ana") (ascii "4002") (ascii "10.0.0.2"),
    .publish (ascii "ana") (ascii "song") (ascii "la la"),
    .publish (ascii "ana") (ascii "notes") (ascii "lesson 1"),
    .delete (ascii "ana") (ascii "song")]

theorem store_refines_directory_ana : ∃ history : History,
    history.map Prod.fst = anaPublishesTwo ∧
      Represents (sysAfter ⟨firstStart, [], []⟩ anaPublishesTwo).tree (usersAfter history) ∧
      Simulates (sysAfter ⟨firstStart, [], []⟩ anaPublishesTwo) (usersAfter history)
        (.publish (ascii "ana") (ascii "notes") (ascii "lesson 2")) := by
  have both : table (sysAfter ⟨firstStart, [], []⟩ (anaPublishesTwo.take 4)).tree =
      some (ascii "bob 10.0.0.1 4001 \nana 10.0.0.2 4002 \n") := by decide +kernel
  have along : ReturnsAlong (fun s request => Fits s.tree request) ⟨firstStart, [], []⟩
      anaPublishesTwo := by
    refine ⟨⟨⟨by decide, by decide⟩, trivial⟩, by decide +kernel,
      ⟨⟨by decide, by decide⟩, trivial⟩, by decide +kernel,
      ⟨⟨by decide, by decide⟩, words_fit [] ?_ ?_⟩, by decide +kernel,
      ⟨⟨by decide, by decide⟩, words_fit (ascii "bob 10.0.0.1 4001 \n") ?_ ?_⟩,
        by decide +kernel,
      ⟨⟨by decide, ⟨by decide, by decide, by decide⟩, by decide, by decide⟩, words_fit _ both ?_⟩, by decide +kernel,
      ⟨⟨by decide, ⟨by decide, by decide, by decide⟩, by decide, by decide⟩, words_fit
        (ascii "bob 10.0.0.1 4001 \nana 10.0.0.2 4002 \n") ?_ ?_⟩, by decide +kernel,
      ⟨⟨by decide, ⟨by decide, by decide, by decide⟩, by decide, by decide⟩, trivial⟩,
        by decide +kernel, trivial⟩
    all_goals decide +kernel
  obtain ⟨history, names, run⟩ := run_sysAfter along
  obtain ⟨represents, simulated⟩ := store_refines_directory emptyStore_firstStart rfl run
  refine ⟨history, names, represents, simulated _ ⟨⟨by decide, ?_, by decide, by decide⟩, ?_⟩⟩
  · exact ⟨by decide, by decide, by decide⟩
  · exact words_fit (ascii "bob 10.0.0.1 4001 \nana 10.0.0.2 4002 \n")
      (by decide +kernel) (by decide)

/-- What is assumed of every request: its names fit, and PUBLISH and DELETE come
from users with an entry. -/
def Expected (t : FileTree) (request : Request) : Prop :=
  request.Deliverable ∧ NamesFit request ∧
    match request with
    | .publish username _ _ => Listed t username
    | .delete username _ => Listed t username
    | _ => True

def longHost : List Request :=
  [.register (ascii "bob"),
    .connect (ascii "bob") (ascii "4001") (List.replicate 100 (UInt8.ofNat 49)),
    .register (ascii "ana"), .connect (ascii "ana") (ascii "4002") (ascii "10.0.0.1")]

/-- After that the PUBLISH of `ana` scans the host into 100 bytes. -/
theorem publish_after_long_host :
    ¬ ∀ (start s : Sys) (history : History), EmptyStore start.tree → start.faults = [] →
      Run (fun s event s' => Expected s.tree event.1 ∧ (serve event.1).run s = .ok event.2 s')
        start history s →
      ∀ request, Expected s.tree request → Simulates s (usersAfter history) request := by
  intro refines
  have along : ReturnsAlong (fun s request => Expected s.tree request) ⟨firstStart, [], []⟩
      longHost :=
    ⟨⟨by decide, ⟨by decide, by decide⟩, trivial⟩, by decide +kernel,
      ⟨by decide, ⟨by decide, by decide⟩, trivial⟩, by decide +kernel,
      ⟨by decide, ⟨by decide, by decide⟩, trivial⟩, by decide +kernel,
      ⟨by decide, ⟨by decide, by decide⟩, trivial⟩, by decide +kernel, trivial⟩
  obtain ⟨history, _, run⟩ := run_sysAfter along
  have listed : Listed (sysAfter ⟨firstStart, [], []⟩ longHost).tree (ascii "ana") :=
    ⟨ascii "bob " ++ List.replicate 100 (UInt8.ofNat 49) ++ ascii " 4001 \nana 10.0.0.1 4002 \n",
      by decide +kernel, ascii "ana 10.0.0.1 4002 \n", by decide +kernel, by decide⟩
  have expected : Expected (sysAfter ⟨firstStart, [], []⟩ longHost).tree
      (.publish (ascii "ana") (ascii "file1") (ascii "first")) :=
    ⟨by decide, ⟨by decide, ⟨by decide, by decide, by decide⟩, by decide, by decide⟩, listed⟩
  obtain ⟨reply, s', ran, _⟩ := refines _ _ _ emptyStore_firstStart rfl run _ expected
  have fails : resOf ((serve (.publish (ascii "ana") (ascii "file1") (ascii "first"))).run
      (sysAfter ⟨firstStart, [], []⟩ longHost)) = none := by decide +kernel
  rw [ran] at fails
  cases fails

end DistrApp.Server
