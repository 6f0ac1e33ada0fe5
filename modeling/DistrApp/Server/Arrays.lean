import DistrApp.Server.Serve

/-!
# The local arrays of the eight operations

The same path is written into arrays of 20 to 1024 bytes, and the words of
conectados.txt into arrays of 256 and of 100.  `HoldsOn` collects what must fit
for the calls that fail; an operation writes inside its arrays exactly then.
`ArraysHold` is what must fit whatever calls fail.
-/

set_option autoImplicit false

namespace DistrApp.Server

open Text FileTree Effects

def WordsFit (size : Nat) (username : Bytes) (read : List Bytes) : Prop :=
  ∀ before word, (before ++ [word]) <+: read → username ∉ before.map cString → word.length < size

/-- Everything that the operation writes into an array on this tree fits there:
in `foldername`, `checkfile`, `filepath`, `user` and `valor1`. -/
def ArraysHold (t : FileTree) : Request → Prop
  | .register _ => True
  | .unregister username =>
      username.length < 244 ∧
        ∀ p, t.find (folderOf username) = some (p, .dir) →
          ∀ name content, t.node (p ++ [name]) = some (.file content) →
            13 + username.length + name.length < 1024
  | .connect username _ _ =>
      username.length < 244 ∧
        (t.access (folderOf username) = true → ∀ opened, t.openAppend conectadosTxt = some opened →
          WordsFit 256 username (words opened.2.1))
  | .disconnect username => username.length < 244
  | .publish username fileName _ =>
      username.length < 38 ∧ username.length + fileName.length < 83 ∧
        (t.access (folderOf username) = true →
          t.access (fileOf (folderOf username) fileName) = false →
          ∀ opened, t.openRead conectadosTxt = some opened →
            WordsFit 100 username (words opened.2))
  | .delete username fileName =>
      fileName.length = 0 ∨ fileName.length > 256 ∨
        username.length < 48 ∧
          (t.access (folderOf username) = true → ∀ opened, t.openRead conectadosTxt = some opened →
            username.length + fileName.length < 239)
  | .listUsers username => username = [] ∨ username.length < 8
  | .listContent _ usernameFolder => usernameFolder.length < 38

/-- What the deleting loop writes in `filepath` before a `remove` fails; its
first `remove` is call number 1. -/
def PathsFit (s : Sys) (username : Bytes) (p : Path) : Prop :=
  ∀ gone e rest, regularEntries (s.tree.entries p) = gone ++ e :: rest →
    (∀ i < gone.length, s.fails (1 + i) = false) → 13 + username.length + e.1.length < 1024

/-- Everything that the operation writes into an array fits there, with the calls
of `s` failing. -/
def HoldsOn (s : Sys) : Request → Prop
  | .register _ => True
  | .unregister username =>
      username.length < 244 ∧ (s.fails 0 = false →
        ∀ p, s.tree.find (folderOf username) = some (p, .dir) → PathsFit s username p)
  | .connect username _ _ =>
      username.length < 244 ∧
        (s.tree.access (folderOf username) = true → s.fails 0 = false →
          ∀ opened, s.tree.openAppend conectadosTxt = some opened →
            WordsFit 256 username (words opened.2.1))
  | .disconnect username => username.length < 244
  | .publish username fileName _ =>
      username.length < 38 ∧ username.length + fileName.length < 83 ∧
        (s.tree.access (folderOf username) = true →
          s.tree.access (fileOf (folderOf username) fileName) = false → s.fails 0 = false →
          ∀ opened, s.tree.openRead conectadosTxt = some opened →
            WordsFit 100 username (words opened.2))
  | .delete username fileName =>
      fileName.length = 0 ∨ fileName.length > 256 ∨
        username.length < 48 ∧
          (s.tree.access (folderOf username) = true → s.fails 0 = false →
            ∀ opened, s.tree.openRead conectadosTxt = some opened →
              username.length + fileName.length < 239)
  | .listUsers username => username = [] ∨ username.length < 8
  | .listContent _ usernameFolder => usernameFolder.length < 38

/-- The run writes inside its arrays. -/
def Spares {α : Type} (op : Op α) (s : Sys) : Prop := ∀ s', op.run s ≠ .error .overflow s'

/-- Whatever calls fail, the operation writes inside its arrays. -/
def WritesInside (t : FileTree) (request : Request) : Prop :=
  ∀ s : Sys, s.tree = t → Spares (serve request) s

theorem wordsFit_nil (size : Nat) (username : Bytes) : WordsFit size username [] := by
  intro before word reading
  simp at reading

theorem wordsFit_cons {size : Nat} {username word : Bytes} {rest : List Bytes} :
    WordsFit size username (word :: rest) ↔
      word.length < size ∧ (cString word ≠ username → WordsFit size username rest) := by
  constructor
  · intro fits
    refine ⟨fits [] word (by simp) (by simp), ?_⟩
    intro other before next reading absent
    refine fits (word :: before) next (List.cons_prefix_cons.mpr ⟨rfl, reading⟩) ?_
    simp only [List.map_cons, List.mem_cons, not_or]
    exact ⟨fun same => other same.symm, absent⟩
  · rintro ⟨short, later⟩ before next reading absent
    cases before with
    | nil =>
        have same : next = word := (List.cons_prefix_cons.mp reading).1
        rw [same]
        exact short
    | cons first before =>
        obtain ⟨rfl, inRest⟩ := List.cons_prefix_cons.mp reading
        simp only [List.map_cons, List.mem_cons, not_or] at absent
        exact later (fun same => absent.1 same.symm) before next inRest absent.2

theorem scanWords_ne_none {size : Nat} {username : Bytes} {read : List Bytes} :
    scanWords size username read ≠ none ↔ WordsFit size username read := by
  induction read with
  | nil => simp [scanWords, wordsFit_nil]
  | cons word rest ih =>
      rw [wordsFit_cons, ← ih, scanWords]
      by_cases long : size ≤ word.length
      · simp [if_pos long, not_lt.mpr long]
      · by_cases same : cString word = username
        · simp [long, same, not_le.mp long]
        · simp [long, same, not_le.mp long]

/-! ## Composing -/

section Spares
variable {α β : Type} {s : Sys}

theorem Spares.pure (a : α) : Spares (pure a) s := by
  intro s' ran
  cases ran

theorem Spares.bind {op : Op α} {next : α → Op β} (first : Spares op s)
    (second : ∀ a s', op.run s = .ok a s' → Spares (next a) s') : Spares (op >>= next) s := by
  intro last ran
  rw [EStateM.run_bind] at ran
  cases middle : op.run s with
  | ok a s' =>
      rw [middle] at ran
      exact second a s' middle last ran
  | error e s' =>
      rw [middle] at ran
      cases ran
      exact first last middle

theorem Spares.ite {c : Prop} [Decidable c] {left right : Op α} (whenTrue : c → Spares left s)
    (whenFalse : ¬ c → Spares right s) : Spares (if c then left else right) s := by
  split
  · rename_i holds
    exact whenTrue holds
  · rename_i fails
    exact whenFalse fails

theorem spares_sprintf {size : Nat} {text : Bytes} {next : Bytes → Op β}
    (fits : text.length < size) (rest : Spares (next text) s) :
    Spares (sprintf size text >>= next) s := by
  intro s' ran
  rw [run_sprintf, if_pos fits] at ran
  exact rest s' ran

theorem spares_access {path : Bytes} {next : Bool → Op β}
    (rest : Spares (next (s.tree.access path)) s) : Spares (access path >>= next) s := rest

theorem spares_closeHandle (id : Nat) : Spares (closeHandle id) s := by
  intro s' ran
  cases ran

theorem spares_change (attempt : FileTree → Option FileTree) : Spares (change attempt) s := by
  intro s' ran
  rw [change, EStateM.run_bind, nextFault_run] at ran
  cases fault : s.faults.headD false with
  | true => rw [fault] at ran; cases ran
  | false =>
      simp only [fault, Bool.false_eq_true, if_false, EStateM.run_bind, EStateM.run_get] at ran
      cases attempted : attempt s.afterFault.tree with
      | none => rw [attempted] at ran; cases ran
      | some tree => rw [attempted] at ran; cases ran

theorem spares_fopen (path : Bytes) (mode : Mode) : Spares (fopen path mode) s := by
  intro s' ran
  rw [fopen_run] at ran
  split at ran
  · cases ran
  · split at ran <;> cases ran

theorem spares_opendir (path : Bytes) : Spares (opendir path) s := by
  intro s' ran
  rw [opendir_run] at ran
  split at ran
  · cases ran
  · split at ran <;> cases ran

theorem spares_fclose (stream : Option Stream) : Spares (fclose stream) s := by
  intro s' ran
  cases stream <;> cases ran

theorem spares_unread (stream : Option Stream) : Spares (unread stream) s := by
  intro s' ran
  cases stream <;> cases ran

theorem spares_fputs (text : Bytes) (stream : Option Stream) : Spares (fputs text stream) s := by
  intro s' ran
  cases stream <;> cases ran

theorem spares_findWord {size : Nat} {username : Bytes} {seen : List Bytes}
    (fits : WordsFit size username seen) : Spares (findWord size username seen) s := by
  intro s' ran
  unfold findWord at ran
  cases scanned : scanWords size username seen with
  | none => exact scanWords_ne_none.mpr fits scanned
  | some found => rw [scanned] at ran; cases ran

theorem spares_answer {op : Op Bytes} (spares : Spares op s) : Spares (answer op) s :=
  Spares.bind spares fun _ _ _ => Spares.pure _

end Spares

/-! ## The operations -/

section Operations
variable {s : Sys} {username fileName : Bytes}

theorem spares_registerServ : Spares (registerServ username) s := by
  unfold registerServ
  refine Spares.ite (fun _ => Spares.pure _) fun sized => ?_
  apply spares_sprintf (by rw [folderOf_length]; omega)
  apply spares_access
  refine Spares.ite (fun _ => Spares.pure _) fun _ => ?_
  refine Spares.bind (spares_change _) fun _ _ _ => ?_
  exact Spares.ite (fun _ => Spares.pure _) fun _ => Spares.pure _

/-- The paths before the first `remove` that fails are those that are written. -/
theorem spares_removeFiles {foldername : Bytes} {listed : List (Name × Node)} :
    ∀ {s : Sys}, (∀ gone e rest, regularEntries listed = gone ++ e :: rest →
      (∀ i < gone.length, s.fails i = false) → foldername.length + 1 + e.1.length < 1024) →
      Spares (removeFiles foldername listed) s := by
  induction listed with
  | nil => exact fun _ => Spares.pure _
  | cons entry rest ih =>
      intro s fits
      obtain ⟨dName, n⟩ := entry
      cases n with
      | dir => exact ih fits
      | file content =>
          have here := fits [] (dName, .file content) (regularEntries rest) rfl (by simp)
          rw [removeFiles]
          apply spares_sprintf (by rw [length_filepath]; exact here)
          refine Spares.bind (spares_change _) fun removed s₁ ran => ?_
          refine Spares.ite (fun worked => ih fun gone e later split works => ?_) fun _ => Spares.pure _
          subst worked
          obtain ⟨first, faults, -⟩ := change_works ran
          refine fits ((dName, .file content) :: gone) e later ?_ fun i below => ?_
          · rw [List.cons_append, ← split]
            rfl
          · cases i with
            | zero => exact first
            | succ i =>
                rw [Nat.add_comm, ← fails_drop faults]
                exact works i (by simpa using below)

theorem spares_unregisterServ (holds : HoldsOn s (.unregister username)) :
    Spares (unregisterServ username) s := by
  obtain ⟨short, paths⟩ := holds
  unfold unregisterServ
  apply spares_sprintf (by rw [folderOf_length]; omega)
  apply spares_access
  refine Spares.ite (fun _ => Spares.pure _) fun _ => ?_
  refine Spares.bind (spares_opendir _) fun dir s₁ opened => ?_
  cases dir with
  | none => exact Spares.pure _
  | some d =>
      obtain ⟨works, faults, -, entries⟩ := opendir_works opened
      obtain ⟨p, found, listed⟩ := find_of_opendir entries
      have fits : Spares (removeFiles (folderOf username) d.entries) s₁ := by
        refine spares_removeFiles fun gone e rest split work => ?_
        rw [listed] at split
        have fit := paths works p found gone e rest split fun i below => by
          rw [← fails_drop faults]
          exact work i below
        rw [folderOf_length]
        omega
      refine Spares.bind fits fun removed _ _ => ?_
      refine Spares.ite (fun _ => ?_) fun _ => ?_
      · exact Spares.bind (spares_closeHandle _) fun _ _ _ => Spares.pure _
      · refine Spares.bind (spares_closeHandle _) fun _ _ _ => ?_
        refine Spares.bind (spares_change _) fun _ _ _ => ?_
        exact Spares.ite (fun _ => Spares.pure _) fun _ => Spares.pure _

theorem spares_scan {path : Bytes} {mode : Mode} {size : Nat} {next : Bool → Op Bytes}
    {stream : Option Stream} {s₁ s₂ : Sys} (opened : (fopen path mode).run s₁ = .ok stream s₂)
    (fits : s₁.fails 0 = false → ∀ file, openFile s₁.tree path mode = some file →
      WordsFit size username (words file.2.1))
    (rest : ∀ found s, Spares (next found) s) :
    Spares (unread stream >>= fun text => findWord size username (words text) >>= next) s₂ := by
  refine Spares.bind (spares_unread _) fun text s₃ took => ?_
  cases stream with
  | none => cases took
  | some f =>
      obtain ⟨works, -, file⟩ := fopen_works opened
      obtain ⟨rfl, rfl⟩ := pure_ok.mp took
      exact Spares.bind (spares_findWord (fits works _ file)) fun found s _ => rest found s

theorem spares_connectServ {freePort freeServer : Bytes}
    (holds : HoldsOn s (.connect username freePort freeServer)) :
    Spares (connectServ username freePort freeServer) s := by
  obtain ⟨short, scans⟩ := holds
  unfold connectServ
  apply spares_sprintf (by rw [folderOf_length]; omega)
  apply spares_access
  refine Spares.ite (fun _ => Spares.pure _) fun there => ?_
  simp only [Bool.not_eq_true', Bool.not_eq_false] at there
  refine Spares.bind (spares_fopen _ _) fun conectadosFile s₁ opened => ?_
  refine spares_scan opened (scans there) fun found s₂ => ?_
  refine Spares.ite (fun _ => ?_) fun _ => ?_
  · exact Spares.bind (spares_fclose _) fun _ _ _ => Spares.pure _
  · refine Spares.ite (fun _ => Spares.pure _) fun _ => ?_
    refine Spares.bind (spares_fputs _ _) fun _ _ _ => ?_
    exact Spares.bind (spares_fclose _) fun _ _ _ => Spares.pure _

theorem spares_copyOthers {tempFile : Option Stream} {userFound : Bool} {read : List Bytes} :
    Spares (copyOthers username tempFile userFound read) s := by
  induction read generalizing userFound s with
  | nil => exact Spares.pure _
  | cons line rest ih =>
      rw [copyOthers]
      split
      · exact ih
      · exact Spares.bind (spares_fputs _ _) fun _ _ _ => ih

theorem spares_disconnectServ (short : username.length < 244) :
    Spares (disconnectServ username) s := by
  unfold disconnectServ
  refine Spares.bind (spares_fopen _ _) fun conectadosFile _ _ => ?_
  refine Spares.bind (spares_fopen _ _) fun tempFile _ _ => ?_
  apply spares_sprintf (by rw [folderOf_length]; omega)
  apply spares_access
  refine Spares.ite (fun _ => ?_) fun _ => ?_
  · exact Spares.bind (spares_fclose _) fun _ _ _ => Spares.pure _
  · refine Spares.ite (fun _ => Spares.pure _) fun _ => ?_
    refine Spares.bind (spares_unread _) fun _ _ _ => ?_
    refine Spares.bind spares_copyOthers fun _ _ _ => ?_
    refine Spares.bind (spares_fclose _) fun _ _ _ => ?_
    refine Spares.bind (spares_fclose _) fun _ _ _ => ?_
    refine Spares.bind (spares_change _) fun _ _ _ => ?_
    refine Spares.bind (spares_change _) fun _ _ _ => ?_
    exact Spares.ite (fun _ => Spares.pure _) fun _ => Spares.pure _

theorem spares_publishServ {description : Bytes}
    (holds : HoldsOn s (.publish username fileName description)) :
    Spares (publishServ username fileName description) s := by
  obtain ⟨short, both, scans⟩ := holds
  unfold publishServ
  apply spares_sprintf (by rw [folderOf_length]; omega)
  apply spares_sprintf (by rw [fileOf_length]; omega)
  apply spares_access
  refine Spares.ite (fun _ => Spares.pure _) fun there => ?_
  simp only [Bool.not_eq_true', Bool.not_eq_false] at there
  apply spares_access
  refine Spares.ite (fun _ => Spares.pure _) fun fresh => ?_
  simp only [Bool.not_eq_true] at fresh
  refine Spares.bind (spares_fopen _ _) fun conectadosFile s₁ opened => ?_
  refine Spares.ite (fun _ => Spares.pure _) fun _ => ?_
  have writes : ∀ s, Spares (if fileName = ascii "notfound" then (pure (ascii "4") : Op Bytes)
      else do
        let filepath ← sprintf 256 (fileOf (folderOf username) fileName)
        let file ← fopen filepath .write
        if file.isNone then
          return ascii "4"
        fputs (description ++ [newline]) file
        fclose file
        return ascii "0") s := by
    intro s
    refine Spares.ite (fun _ => Spares.pure _) fun _ => ?_
    apply spares_sprintf (by rw [fileOf_length]; omega)
    refine Spares.bind (spares_fopen _ _) fun file _ _ => ?_
    refine Spares.ite (fun _ => Spares.pure _) fun _ => ?_
    refine Spares.bind (spares_fputs _ _) fun _ _ _ => ?_
    exact Spares.bind (spares_fclose _) fun _ _ _ => Spares.pure _
  refine spares_scan opened ?_ fun found s₂ => ?_
  · intro works file open_file
    obtain ⟨read, table, rfl⟩ := Option.map_eq_some_iff.mp open_file
    exact scans there fresh works read table
  · cases found with
    | true => exact Spares.bind (spares_fclose _) fun _ s₃ _ => writes s₃
    | false => exact writes s₂

theorem spares_deleteServ (holds : HoldsOn s (.delete username fileName)) :
    Spares (deleteServ username fileName) s := by
  unfold deleteServ
  refine Spares.ite (fun _ => Spares.pure _) fun sized => ?_
  rw [not_or] at sized
  obtain ⟨short, both⟩ := (holds.resolve_left sized.1).resolve_left sized.2
  apply spares_sprintf (by rw [folderOf_length]; omega)
  apply spares_access
  refine Spares.ite (fun _ => Spares.pure _) fun there => ?_
  simp only [Bool.not_eq_true', Bool.not_eq_false] at there
  refine Spares.bind (spares_fopen _ _) fun conectadosFile s₁ opened => ?_
  refine Spares.ite (fun _ => Spares.pure _) fun present => ?_
  cases conectadosFile with
  | none => exact absurd rfl present
  | some f =>
      obtain ⟨works, -, file⟩ := fopen_works opened
      obtain ⟨read, table, -⟩ := Option.map_eq_some_iff.mp file
      have fits := both there works read table
      apply spares_sprintf (by rw [fileOf_length]; omega)
      refine Spares.bind (spares_change _) fun _ _ _ => ?_
      exact Spares.ite (fun _ => Spares.pure _) fun _ => Spares.pure _

theorem spares_listUsersServ (holds : HoldsOn s (.listUsers username)) :
    Spares (listUsersServ username) s := by
  unfold listUsersServ
  refine Spares.ite (fun _ => Spares.pure _) fun named => ?_
  have short := holds.resolve_left named
  apply spares_sprintf (by rw [folderOf_length]; omega)
  apply spares_access
  refine Spares.ite (fun _ => Spares.pure _) fun _ => ?_
  refine Spares.bind (spares_fopen _ _) fun conectadosFile _ _ => ?_
  refine Spares.ite (fun _ => Spares.pure _) fun _ => ?_
  refine Spares.bind (spares_unread _) fun _ _ _ => ?_
  exact Spares.bind (spares_fclose _) fun _ _ _ => Spares.pure _

theorem spares_listContentServ {usernameFolder : Bytes} (short : usernameFolder.length < 38) :
    Spares (listContentServ username usernameFolder) s := by
  unfold listContentServ
  apply spares_sprintf (by rw [folderOf_length]; omega)
  refine Spares.bind (spares_opendir _) fun dir _ _ => ?_
  cases dir with
  | none => exact Spares.pure _
  | some dir =>
      refine Spares.bind (spares_closeHandle _) fun _ _ _ => ?_
      exact spares_sprintf (by omega) (Spares.pure _)

theorem spares_of_holdsOn {request : Request} (holds : HoldsOn s request) :
    Spares (serve request) s := by
  cases request with
  | register username => exact spares_answer spares_registerServ
  | unregister username => exact spares_answer (spares_unregisterServ holds)
  | connect username freePort freeServer => exact spares_answer (spares_connectServ holds)
  | disconnect username => exact spares_answer (spares_disconnectServ holds)
  | publish username fileName description => exact spares_answer (spares_publishServ holds)
  | delete username fileName => exact spares_answer (spares_deleteServ holds)
  | listUsers username =>
      exact Spares.bind (spares_listUsersServ holds) fun _ _ _ => Spares.pure _
  | listContent username usernameFolder =>
      exact Spares.bind (spares_listContentServ holds) fun _ _ _ => Spares.pure _

end Operations

/-! ## What does not hold is overrun -/

section Overruns
variable {s : Sys} {username fileName : Bytes}

theorem Spares.first {α β : Type} {op : Op α} {next : α → Op β} (spares : Spares (op >>= next) s) :
    Spares op s := by
  intro s' ran
  refine spares s' ?_
  rw [EStateM.run_bind, ran]

theorem Spares.after {α β : Type} {op : Op α} {next : α → Op β} {a : α} {s' : Sys}
    (spares : Spares (op >>= next) s) (ran : op.run s = .ok a s') : Spares (next a) s' := by
  intro last overruns
  refine spares last ?_
  rw [EStateM.run_bind, ran]
  exact overruns

theorem Spares.sprintf {β : Type} {size : Nat} {text : Bytes} {next : Bytes → Op β}
    (spares : Spares (sprintf size text >>= next) s) : text.length < size ∧ Spares (next text) s := by
  by_cases fits : text.length < size
  · refine ⟨fits, fun s' ran => spares s' ?_⟩
    rw [run_sprintf, if_pos fits]
    exact ran
  · exact absurd (by rw [run_sprintf, if_neg fits]) (spares s)

theorem Spares.scan {β : Type} {size : Nat} {seen : List Bytes} {next : Bool → Op β}
    (spares : Spares (findWord size username seen >>= next) s) : WordsFit size username seen := by
  refine scanWords_ne_none.mp fun scanned => spares.first s ?_
  rw [findWord, scanned]
  rfl

theorem fopen_opens {path : Bytes} (mode : Mode) {file : Path × Bytes × FileTree}
    (works : s.fails 0 = false) (opened : openFile s.tree path mode = some file) :
    ∃ f s', (fopen path mode).run s = .ok (some f) s' ∧ f.text = file.2.1 := by
  rw [fopen_run, headD_faults, works, opened]
  exact ⟨_, _, rfl, rfl⟩

theorem paths_of_spares {foldername : Bytes} {p : Path} (nonempty : foldername ≠ [])
    {listed : List (Name × Node)} :
    ∀ {s : Sys}, s.tree.resolve foldername = some p → (listed.map Prod.fst).Nodup →
      (∀ e ∈ listed, s.tree.node (p ++ [e.1]) = some e.2) →
      Spares (removeFiles foldername listed) s →
      ∀ gone e rest, regularEntries listed = gone ++ e :: rest →
        (∀ i < gone.length, s.fails i = false) → foldername.length + 1 + e.1.length < 1024 := by
  induction listed with
  | nil =>
      intro s _ _ _ _ gone e rest split
      exact absurd split (by simp [regularEntries])
  | cons entry listed ih =>
      intro s resolved distinct stored spares gone e rest split works
      obtain ⟨dName, n⟩ := entry
      rw [List.map_cons, List.nodup_cons] at distinct
      have here : s.tree.node (p ++ [dName]) = some n := stored (dName, n) List.mem_cons_self
      have storedRest : ∀ e ∈ listed, s.tree.node (p ++ [e.1]) = some e.2 :=
        fun e member => stored e (List.mem_cons_of_mem _ member)
      cases n with
      | dir => exact ih resolved distinct.2 storedRest spares gone e rest split works
      | file content =>
          have shape : (dName, Node.file content) :: regularEntries listed = gone ++ e :: rest := split
          rw [removeFiles] at spares
          obtain ⟨fits, later⟩ := Spares.sprintf spares
          rw [length_filepath] at fits
          cases gone with
          | nil =>
              cases shape
              exact fits
          | cons first gone =>
              rw [List.cons_append, List.cons.injEq] at shape
              have ran : (remove (foldername ++ ascii "/" ++ dName)).run s =
                  .ok true { s.afterFault with tree := s.tree.erase (p ++ [dName]) } := by
                rw [remove, change_run, headD_faults, works 0 (by simp),
                  remove_child nonempty resolved here]
                rfl
              have apart : ∀ e ∈ listed, p ++ [e.1] ≠ p ++ [dName] := by
                intro e member same
                have names : e.1 = dName := by simpa using same
                exact distinct.1 (List.mem_map.mpr ⟨e, member, names⟩)
              refine @ih { s.afterFault with tree := s.tree.erase (p ++ [dName]) }
                (by rw [(erase_file_sameDirs here).resolve]; exact resolved) distinct.2 ?_
                (later.after ran) gone e rest shape.2 fun i below => ?_
              · intro e member
                rw [node_erase_ne s.tree (apart e member)]
                exact storedRest e member
              · rw [fails_drop (s := s) (n := 1) (by simp [Sys.afterFault]), Nat.add_comm]
                exact works (i + 1) (by simpa using below)

theorem unregister_overruns (spares : Spares (unregisterServ username) s) :
    HoldsOn s (.unregister username) := by
  unfold unregisterServ at spares
  obtain ⟨short, spares⟩ := Spares.sprintf spares
  refine ⟨by rw [folderOf_length] at short; omega, fun works p found => ?_⟩
  have opened : (opendir (folderOf username)).run s =
      .ok (some ⟨s.handles.length, s.tree.entries p⟩)
        { s.afterFault with handles := s.handles ++ [HandleEvent.opened s.handles.length] } := by
    rw [opendir_run, headD_faults, works, FileTree.opendir, found]
    rfl
  have there := access_of_find found
  intro gone e rest split work
  have fits := paths_of_spares (folderOf_ne_nil username)
    (s := { s.afterFault with handles := s.handles ++ [HandleEvent.opened s.handles.length] })
    (find_node found).1 (entries_names_nodup s.tree p) (fun e member => mem_entries.mp member)
    ?_ gone e rest split fun i below => ?_
  · rw [folderOf_length] at fits
    omega
  · intro s' ran
    refine spares s' ?_
    rw [run_access, there]
    simp only [Bool.not_true, Bool.false_eq_true, if_false]
    rw [EStateM.run_bind, opened]
    simp only
    rw [EStateM.run_bind, ran]
  · rw [fails_drop (s := s) (n := 1) (by simp [Sys.afterFault])]
    exact work i below

theorem connect_overruns {freePort freeServer : Bytes}
    (spares : Spares (connectServ username freePort freeServer) s) :
    HoldsOn s (.connect username freePort freeServer) := by
  unfold connectServ at spares
  obtain ⟨short, spares⟩ := Spares.sprintf spares
  refine ⟨by rw [folderOf_length] at short; omega, fun there works opened appended => ?_⟩
  replace spares := spares.after (show (access (folderOf username)).run s = .ok _ s from rfl)
  rw [there, if_neg (by decide)] at spares
  obtain ⟨f, s₁, ran, text⟩ := fopen_opens .append works appended
  rw [← text]
  exact ((spares.after ran).after (show (unread (some f)).run s₁ = .ok f.text s₁ from rfl)).scan

theorem disconnect_overruns (spares : Spares (disconnectServ username) s) :
    username.length < 244 := by
  unfold disconnectServ at spares
  have returns : ∀ (path : Bytes) (mode : Mode) (s : Sys), ∃ stream s',
      (fopen path mode).run s = .ok stream s' := by
    intro path mode s
    rw [fopen_run]
    split
    · exact ⟨_, _, rfl⟩
    · split <;> exact ⟨_, _, rfl⟩
  obtain ⟨_, s₁, first⟩ := returns conectadosTxt .update s
  obtain ⟨_, s₂, second⟩ := returns tempTxt .write s₁
  have fits := (Spares.sprintf ((spares.after first).after second)).1
  rw [folderOf_length] at fits
  omega

theorem publish_overruns {description : Bytes}
    (spares : Spares (publishServ username fileName description) s) :
    HoldsOn s (.publish username fileName description) := by
  unfold publishServ at spares
  obtain ⟨short, spares⟩ := Spares.sprintf spares
  obtain ⟨both, spares⟩ := Spares.sprintf spares
  rw [folderOf_length] at short
  rw [fileOf_length] at both
  refine ⟨by omega, by omega, fun there fresh works opened read => ?_⟩
  replace spares := spares.after (show (access (folderOf username)).run s = .ok _ s from rfl)
  rw [there, if_neg (by decide)] at spares
  replace spares := spares.after
    (show (access (fileOf (folderOf username) fileName)).run s = .ok _ s from rfl)
  rw [fresh, if_neg (by decide)] at spares
  obtain ⟨f, s₁, ran, text⟩ := fopen_opens .read works
    (show openFile s.tree conectadosTxt .read = some (opened.1, opened.2, s.tree) by
      rw [openFile, read]; rfl)
  replace spares := spares.after ran
  rw [if_neg (by simp)] at spares
  rw [show opened.2 = f.text from text.symm]
  exact (spares.after (show (unread (some f)).run s₁ = .ok f.text s₁ from rfl)).scan

theorem delete_overruns (spares : Spares (deleteServ username fileName) s) :
    HoldsOn s (.delete username fileName) := by
  unfold deleteServ at spares
  by_cases sized : fileName.length = 0 ∨ fileName.length > 256
  · exact sized.imp_right Or.inl
  · rw [if_neg sized] at spares
    obtain ⟨short, spares⟩ := Spares.sprintf spares
    rw [folderOf_length] at short
    refine Or.inr (Or.inr ⟨by omega, fun there works opened read => ?_⟩)
    replace spares := spares.after (show (access (folderOf username)).run s = .ok _ s from rfl)
    rw [there, if_neg (by decide)] at spares
    obtain ⟨f, s₁, ran, -⟩ := fopen_opens .read works
      (show openFile s.tree conectadosTxt .read = some (opened.1, opened.2, s.tree) by
        rw [openFile, read]; rfl)
    replace spares := spares.after ran
    rw [if_neg (by simp)] at spares
    have fits := (Spares.sprintf spares).1
    rw [fileOf_length] at fits
    omega

theorem listUsers_overruns (spares : Spares (listUsersServ username) s) :
    username = [] ∨ username.length < 8 := by
  unfold listUsersServ at spares
  by_cases empty : username = []
  · exact Or.inl empty
  · rw [if_neg empty] at spares
    have fits := (Spares.sprintf spares).1
    rw [folderOf_length] at fits
    exact Or.inr (by omega)

theorem listContent_overruns {usernameFolder : Bytes}
    (spares : Spares (listContentServ username usernameFolder) s) : usernameFolder.length < 38 := by
  have fits := (Spares.sprintf spares).1
  rw [folderOf_length] at fits
  omega

theorem holdsOn_of_spares {request : Request} (spares : Spares (serve request) s) :
    HoldsOn s request := by
  cases request with
  | register username => trivial
  | unregister username => exact unregister_overruns spares.first
  | connect username freePort freeServer => exact connect_overruns spares.first
  | disconnect username => exact disconnect_overruns spares.first
  | publish username fileName description => exact publish_overruns spares.first
  | delete username fileName => exact delete_overruns spares.first
  | listUsers username => exact listUsers_overruns spares.first
  | listContent username usernameFolder => exact listContent_overruns spares.first

/-- With these calls failing, the operation writes inside its arrays exactly when
everything that it writes there fits. -/
theorem spares_iff_holdsOn {request : Request} : Spares (serve request) s ↔ HoldsOn s request :=
  ⟨holdsOn_of_spares, spares_of_holdsOn⟩

end Overruns

/-! ## Whatever calls fail -/

section Always
variable {s : Sys} {request : Request}

theorem mem_regularEntries {t : FileTree} {p : Path} {e : Name × Node} :
    e ∈ regularEntries (t.entries p) ↔ ∃ content, e.2 = .file content ∧
      t.node (p ++ [e.1]) = some (.file content) := by
  obtain ⟨name, n⟩ := e
  rw [regularEntries, List.mem_filter, mem_entries]
  cases n with
  | dir => simp
  | file content => simp

theorem holdsOn_of_arraysHold (holds : ArraysHold s.tree request) : HoldsOn s request := by
  cases request with
  | register username => trivial
  | unregister username =>
      refine ⟨holds.1, fun _ p found gone e rest split _ => ?_⟩
      have listed : e ∈ regularEntries (s.tree.entries p) := by
        rw [split]
        exact List.mem_append_right _ List.mem_cons_self
      obtain ⟨content, -, here⟩ := mem_regularEntries.mp listed
      exact holds.2 p found e.1 content here
  | connect username freePort freeServer => exact ⟨holds.1, fun there _ => holds.2 there⟩
  | disconnect username => exact holds
  | publish username fileName description =>
      exact ⟨holds.1, holds.2.1, fun there fresh _ => holds.2.2 there fresh⟩
  | delete username fileName =>
      exact holds.imp_right fun rest =>
        rest.imp_right fun both => ⟨both.1, fun there _ => both.2 there⟩
  | listUsers username => exact holds
  | listContent username usernameFolder => exact holds

theorem arraysHold_of_holdsOn (calm : s.faults = []) (holds : HoldsOn s request) :
    ArraysHold s.tree request := by
  have works : ∀ n, s.fails n = false := fun n => by rw [Sys.fails, calm]; rfl
  cases request with
  | register username => trivial
  | unregister username =>
      refine ⟨holds.1, fun p found name content here => ?_⟩
      have listed : (name, Node.file content) ∈ regularEntries (s.tree.entries p) :=
        mem_regularEntries.mpr ⟨content, rfl, here⟩
      obtain ⟨gone, rest, split⟩ := List.append_of_mem listed
      exact holds.2 (works 0) p found gone _ rest split fun i _ => works (1 + i)
  | connect username freePort freeServer => exact ⟨holds.1, fun there => holds.2 there (works 0)⟩
  | disconnect username => exact holds
  | publish username fileName description =>
      exact ⟨holds.1, holds.2.1, fun there fresh => holds.2.2 there fresh (works 0)⟩
  | delete username fileName =>
      exact holds.imp_right fun rest =>
        rest.imp_right fun both => ⟨both.1, fun there => both.2 there (works 0)⟩
  | listUsers username => exact holds
  | listContent username usernameFolder => exact holds

theorem spares_serve (holds : ArraysHold s.tree request) : Spares (serve request) s :=
  spares_of_holdsOn (holdsOn_of_arraysHold holds)

theorem serve_overruns (calm : s.faults = []) (spares : Spares (serve request) s) :
    ArraysHold s.tree request :=
  arraysHold_of_holdsOn calm (holdsOn_of_spares spares)

end Always

/-- Whatever calls fail, an operation writes inside its arrays if and only if
everything it writes there fits. -/
theorem writesInside_iff_arraysHold (t : FileTree) (request : Request) :
    WritesInside t request ↔ ArraysHold t request := by
  constructor
  · intro inside
    exact serve_overruns (s := ⟨t, [], []⟩) rfl (inside ⟨t, [], []⟩ rfl)
  · rintro holds s rfl
    exact spares_serve holds

/-- A user name of 1 to 255 bytes, and no other field longer than that. -/
def Modest (request : Request) : Prop :=
  request.Deliverable ∧ 1 ≤ request.username.length ∧ ∀ field ∈ request.fields, field.length ≤ 255

instance : DecidablePred Modest := fun request =>
  inferInstanceAs (Decidable (request.Deliverable ∧ 1 ≤ request.username.length ∧
    ∀ field ∈ request.fields, field.length ≤ 255))

/-- REGISTER accepts `fernando`, whose LIST_USERS does not fit `foldername[20]`. -/
theorem listUsers_overruns_foldername :
    ¬ ∀ (start t : FileTree) (history : History) (request : Request), Started start →
      Run Serves start history t → (∀ event ∈ history, Modest event.1) → Modest request →
      WritesInside t request := by
  intro inside
  have served := @run_treeAfter firstStart [.register (ascii "fernando")] (by decide) (by decide)
  have spares := inside firstStart _ _ (.listUsers (ascii "fernando")) (by decide) served
    (by decide +kernel) (by decide) ⟨_, [], []⟩ rfl
  have short := listUsers_overruns (Spares.first spares)
  exact absurd short (by decide)

end DistrApp.Server
