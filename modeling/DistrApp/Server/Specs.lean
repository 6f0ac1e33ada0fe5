import DistrApp.Server.Places

/-!
# What the operations do when calls fail only because of the tree

One equation for each operation, in the order of its tests.  A result `error`
is the point from which C says nothing more.
-/

set_option autoImplicit false

namespace DistrApp.Server

open Text FileTree

variable {s : Sys}

theorem length_folderOf_lt {username : Bytes} {size : Nat} :
    (folderOf username).length < size ↔ 12 + username.length < size := by
  rw [folderOf_length]

theorem fileOf_length (username fileName : Bytes) :
    (fileOf (folderOf username) fileName).length = 17 + username.length + fileName.length := by
  simp only [fileOf, List.length_append, folderOf_length,
    show (ascii "/").length = 1 by decide, show (ascii ".txt").length = 4 by decide]
  omega

theorem run_registerServ (calm : s.faults = []) (username : Bytes) :
    (registerServ username).run s =
      if username.length = 0 ∨ username.length > 256 then .ok (ascii "2") s
      else if s.tree.access (folderOf username) then .ok (ascii "1") s
      else match s.tree.mkdir (folderOf username) with
        | some tree => .ok (ascii "0") { s with tree := tree }
        | none => .ok (ascii "2") s := by
  simp only [registerServ, run_ite, run_sprintf, run_access, run_mkdir calm, EStateM.run_pure,
    length_folderOf_lt, Bool.not_true, Bool.not_false, Bool.false_eq_true, if_false, if_true]
  split
  · rfl
  · rename_i sized
    exact (if_pos (show 12 + username.length < 1024 by omega)).trans rfl

theorem run_connectServ (calm : s.faults = []) (username freePort freeServer : Bytes) :
    (connectServ username freePort freeServer).run s =
      if 244 ≤ username.length then .error .overflow s
      else if !s.tree.access (folderOf username) then .ok (ascii "1") s
      else match s.tree.openAppend conectadosTxt with
        | none => .error .nullStream s
        | some (file, text, tree) =>
            let opened := s.handles ++ [HandleEvent.opened s.handles.length]
            let closed := opened ++ [HandleEvent.closed s.handles.length]
            match scanWords 256 username (words text) with
            | none => .error .overflow { s with tree := tree, handles := opened }
            | some true => .ok (ascii "2") { s with tree := tree, handles := closed }
            | some false => .ok (ascii "0")
                { s with
                  tree := tree.append file (tableEntry username freeServer freePort)
                  handles := closed } := by
  simp only [connectServ, run_ite, run_sprintf, run_access, run_fopen calm, length_folderOf_lt,
    EStateM.run_pure, openFile]
  by_cases long : 244 ≤ username.length
  · rw [if_neg (by omega), if_pos long]
  · rw [if_pos (by omega), if_neg long]
    split
    · rfl
    · cases s.tree.openAppend conectadosTxt with
      | none => simp only [run_unread_none]
      | some opened =>
          simp only [run_unread_some, run_findWord]
          cases scanWords 256 username (words opened.2.1) with
          | none => rfl
          | some found => cases found <;> rfl

theorem run_listUsersServ (calm : s.faults = []) (username : Bytes) :
    (listUsersServ username).run s =
      if username = [] then .ok (ascii "2", none) s
      else if 8 ≤ username.length then .error .overflow s
      else if !s.tree.access (folderOf username) then .ok (ascii "1", none) s
      else match s.tree.openRead conectadosTxt with
        | none => .ok (ascii "2", none) s
        | some (_, text) => .ok (ascii "0", some ((pieces 256 text).length : Int))
            { s with handles := s.handles ++ [HandleEvent.opened s.handles.length] ++
                [HandleEvent.closed s.handles.length] } := by
  simp only [listUsersServ, run_ite, run_sprintf, run_access, run_fopen calm, length_folderOf_lt,
    EStateM.run_pure, openFile]
  by_cases long : 8 ≤ username.length
  · rw [if_neg (show ¬ 12 + username.length < 20 by omega), if_pos long]
  · rw [if_pos (show 12 + username.length < 20 by omega), if_neg long]
    cases s.tree.openRead conectadosTxt <;> rfl

theorem run_listContentServ (calm : s.faults = []) (username usernameFolder : Bytes) :
    (listContentServ username usernameFolder).run s =
      if 38 ≤ usernameFolder.length then .error .overflow s
      else match s.tree.opendir (folderOf usernameFolder) with
        | none => .ok (ascii "Usuario no registrado\n", -1, none) s
        | some entries => .ok (ascii "0", ((regularEntries entries).length : Int),
              some usernameFolder)
            { s with handles := s.handles ++ [HandleEvent.opened s.handles.length] ++
                [HandleEvent.closed s.handles.length] } := by
  simp only [listContentServ, run_sprintf, run_opendir calm, length_folderOf_lt]
  by_cases long : 38 ≤ usernameFolder.length
  · rw [if_neg (by omega), if_pos long]
  · rw [if_pos (by omega), if_neg long]
    cases s.tree.opendir (folderOf usernameFolder) with
    | none => rfl
    | some entries =>
        simp only [run_closedir, run_sprintf, EStateM.run_pure]
        rw [if_pos (by omega)]

theorem run_publishServ (calm : s.faults = []) (username fileName description : Bytes) :
    (publishServ username fileName description).run s =
      if 38 ≤ username.length ∨ 83 ≤ username.length + fileName.length then .error .overflow s
      else if !s.tree.access (folderOf username) then .ok (ascii "1") s
      else if s.tree.access (fileOf (folderOf username) fileName) then .ok (ascii "3") s
      else match s.tree.openRead conectadosTxt with
        | none => .ok (ascii "2") s
        | some (_, text) =>
            let opened := s.handles ++ [HandleEvent.opened s.handles.length]
            match scanWords 100 username (words text) with
            | none => .error .overflow { s with handles := opened }
            | some found =>
                let scanned :=
                  if found then opened ++ [HandleEvent.closed s.handles.length] else opened
                if fileName = ascii "notfound" then .ok (ascii "4") { s with handles := scanned }
                else match s.tree.openWrite (fileOf (folderOf username) fileName) with
                  | none => .ok (ascii "4") { s with handles := scanned }
                  | some (file, tree) => .ok (ascii "0")
                      { s with
                        tree := tree.append file (description ++ [newline])
                        handles := scanned ++ [HandleEvent.opened scanned.length] ++
                          [HandleEvent.closed scanned.length] } := by
  simp only [publishServ, run_ite, run_sprintf, run_access, run_fopen calm, length_folderOf_lt,
    fileOf_length, EStateM.run_pure, openFile]
  by_cases long : 38 ≤ username.length ∨ 83 ≤ username.length + fileName.length
  · rw [if_pos long]
    split <;> [split <;> [omega; rfl]; rfl]
  · rw [if_neg long, if_pos (by omega), if_pos (by omega)]
    split
    · rfl
    · split
      · rfl
      · cases s.tree.openRead conectadosTxt with
        | none => rfl
        | some opened =>
            simp only [Option.map_some, Option.isNone_some, Bool.false_eq_true, if_false,
              run_unread_some, run_findWord]
            cases scanWords 100 username (words opened.2) with
            | none => rfl
            | some found =>
                have fits : 17 + username.length + fileName.length < 256 := by omega
                cases found with
                | true =>
                    simp only [run_fclose_some, run_ite, run_sprintf, if_true, run_fopen, calm,
                      EStateM.run_pure, fileOf_length, if_pos fits, openFile]
                    cases s.tree.openWrite (fileOf (folderOf username) fileName) <;> rfl
                | false =>
                    simp only [run_ite, run_sprintf, run_fopen, calm, EStateM.run_pure,
                      fileOf_length, if_pos fits, openFile, Bool.false_eq_true, if_false]
                    cases s.tree.openWrite (fileOf (folderOf username) fileName) <;> rfl

theorem run_deleteServ (calm : s.faults = []) (username fileName : Bytes) :
    (deleteServ username fileName).run s =
      if fileName.length = 0 ∨ fileName.length > 256 then .ok (ascii "4") s
      else if 48 ≤ username.length then .error .overflow s
      else if !s.tree.access (folderOf username) then .ok (ascii "1") s
      else match s.tree.openRead conectadosTxt with
        | none => .ok (ascii "2") s
        | some _ =>
            let opened := s.handles ++ [HandleEvent.opened s.handles.length]
            if 239 ≤ username.length + fileName.length then
              .error .overflow { s with handles := opened }
            else match s.tree.remove (fileOf (folderOf username) fileName) with
              | none => .ok (ascii "3") { s with handles := opened }
              | some tree => .ok (ascii "0") { s with tree := tree, handles := opened } := by
  simp only [deleteServ, run_ite, run_sprintf, run_access, run_fopen calm, length_folderOf_lt,
    EStateM.run_pure, openFile]
  by_cases long : 48 ≤ username.length
  · rw [if_neg (show ¬ 12 + username.length < 60 by omega), if_pos long]
  · rw [if_pos (show 12 + username.length < 60 by omega), if_neg long]
    cases s.tree.openRead conectadosTxt with
    | none => rfl
    | some opened =>
        simp only [Option.map_some, Option.isNone_some, Bool.false_eq_true, if_false, run_ite,
          run_remove, calm, EStateM.run_pure, fileOf_length]
        by_cases longFile : 239 ≤ username.length + fileName.length
        · rw [if_neg (show ¬ 17 + username.length + fileName.length < 256 by omega),
            if_pos longFile]
        · rw [if_pos (show 17 + username.length + fileName.length < 256 by omega),
            if_neg longFile]
          cases s.tree.remove (fileOf (folderOf username) fileName) <;> rfl

/-! ## UNREGISTER: the deleting loop -/

structure Emptied (p : Path) (t t' : FileTree) : Prop where
  dirs : SameDirs t t'
  gone : ∀ name content, t.node (p ++ [name]) = some (.file content) →
    t'.node (p ++ [name]) = none
  others : ∀ q, (∀ name content, q = p ++ [name] → t.node q ≠ some (.file content)) →
    t'.node q = t.node q

theorem length_filepath (foldername dName : Bytes) :
    (foldername ++ ascii "/" ++ dName).length = foldername.length + 1 + dName.length := by
  simp only [List.length_append, show (ascii "/").length = 1 by decide]

theorem remove_child {t : FileTree} {foldername : Bytes} {p : Path} {name : Name} {content : Bytes}
    (nonempty : foldername ≠ []) (resolved : t.resolve foldername = some p)
    (here : t.node (p ++ [name]) = some (.file content)) :
    t.remove (foldername ++ ascii "/" ++ name) = some (t.erase (p ++ [name])) := by
  have found := find_child nonempty resolved here
  rw [show [slash] = ascii "/" by decide] at found
  rw [FileTree.remove, found]

/-- No `remove` of the loop fails by itself; what can end it is a path that
does not fit `filepath`. -/
theorem run_removeFiles {foldername : Bytes} {p : Path} (nonempty : foldername ≠ []) :
    ∀ (listed : List (Name × Node)) (s : Sys), s.faults = [] →
      s.tree.resolve foldername = some p → (listed.map Prod.fst).Nodup →
      (∀ e ∈ listed, s.tree.node (p ++ [e.1]) = some e.2) →
      (∀ name content, (name, Node.file content) ∈ listed →
        foldername.length + 1 + name.length < 1024) →
      ∃ t', (removeFiles foldername listed).run s = .ok true { s with tree := t' } ∧
        SameDirs s.tree t' ∧
        (∀ name content, (name, Node.file content) ∈ listed → t'.node (p ++ [name]) = none) ∧
        (∀ q, (∀ name content, (name, Node.file content) ∈ listed → q ≠ p ++ [name]) →
          t'.node q = s.tree.node q) := by
  intro listed
  induction listed with
  | nil =>
      intro s _ _ _ _ _
      exact ⟨s.tree, rfl, SameDirs.refl _, by simp, fun _ _ => rfl⟩
  | cons e rest ih =>
      intro s calm resolved distinct stored fits
      obtain ⟨name, n⟩ := e
      rw [List.map_cons, List.nodup_cons] at distinct
      have here : s.tree.node (p ++ [name]) = some n := stored (name, n) List.mem_cons_self
      have storedRest : ∀ e ∈ rest, s.tree.node (p ++ [e.1]) = some e.2 :=
        fun e member => stored e (List.mem_cons_of_mem _ member)
      have fitsRest : ∀ name content, (name, Node.file content) ∈ rest →
          foldername.length + 1 + name.length < 1024 :=
        fun name content member => fits name content (List.mem_cons_of_mem _ member)
      cases n with
      | dir =>
          obtain ⟨t', ran, dirs, gone, others⟩ :=
            ih s calm resolved distinct.2 storedRest fitsRest
          refine ⟨t', ran, dirs, ?_, ?_⟩
          · intro name' content member
            rcases List.mem_cons.mp member with same | member
            · cases same
            · exact gone name' content member
          · intro q different
            exact others q fun name' content member =>
              different name' content (List.mem_cons_of_mem _ member)
      | file content =>
          have sized := fits name content List.mem_cons_self
          have dirs₁ := erase_file_sameDirs here
          have free := removable_of_file here
          have apart : ∀ e ∈ rest, p ++ [e.1] ≠ p ++ [name] := by
            intro e member same
            have names : e.1 = name := by simpa using same
            exact distinct.1 (List.mem_map.mpr ⟨e, member, names⟩)
          obtain ⟨t', ran, dirs, gone, others⟩ := ih { s with tree := s.tree.erase (p ++ [name]) }
            calm (by rw [dirs₁.resolve]; exact resolved) distinct.2
            (fun e member => by
              rw [node_erase_ne s.tree (apart e member)]; exact storedRest e member) fitsRest
          refine ⟨t', ?_, dirs₁.trans dirs, ?_, ?_⟩
          · simp only [removeFiles, run_sprintf, length_filepath, if_pos sized, run_remove calm,
              remove_child nonempty resolved here, if_true]
            exact ran
          · intro name' content' member
            rcases List.mem_cons.mp member with same | member
            · cases same
              rw [others (p ++ [name])
                fun name' content' member' same => apart _ member' same.symm]
              exact node_erase_self free
            · exact gone name' content' member
          · intro q different
            rw [others q fun name' content' member =>
              different name' content' (List.mem_cons_of_mem _ member)]
            exact node_erase_ne s.tree (different name content List.mem_cons_self)

theorem run_removeFiles_overflow {foldername : Bytes} {p : Path} (nonempty : foldername ≠ []) :
    ∀ (listed : List (Name × Node)) (s : Sys), s.faults = [] →
      s.tree.resolve foldername = some p → (listed.map Prod.fst).Nodup →
      (∀ e ∈ listed, s.tree.node (p ++ [e.1]) = some e.2) →
      (∃ name content, (name, Node.file content) ∈ listed ∧
        1024 ≤ foldername.length + 1 + name.length) →
      ∃ s', (removeFiles foldername listed).run s = .error .overflow s' := by
  intro listed
  induction listed with
  | nil =>
      rintro s _ _ _ _ ⟨name, content, member, _⟩
      cases member
  | cons e rest ih =>
      rintro s calm resolved distinct stored ⟨long, longContent, member, unfit⟩
      obtain ⟨name, n⟩ := e
      rw [List.map_cons, List.nodup_cons] at distinct
      have here : s.tree.node (p ++ [name]) = some n := stored (name, n) List.mem_cons_self
      have storedRest : ∀ e ∈ rest, s.tree.node (p ++ [e.1]) = some e.2 :=
        fun e member => stored e (List.mem_cons_of_mem _ member)
      cases n with
      | dir =>
          have later : (long, Node.file longContent) ∈ rest := by
            rcases List.mem_cons.mp member with same | member
            · cases same
            · exact member
          exact ih s calm resolved distinct.2 storedRest ⟨long, longContent, later, unfit⟩
      | file content =>
          by_cases sized : foldername.length + 1 + name.length < 1024
          · have later : (long, Node.file longContent) ∈ rest := by
              rcases List.mem_cons.mp member with same | member
              · cases same
                omega
              · exact member
            have dirs := erase_file_sameDirs here
            have apart : ∀ e ∈ rest, p ++ [e.1] ≠ p ++ [name] := by
              intro e member same
              have names : e.1 = name := by simpa using same
              exact distinct.1 (List.mem_map.mpr ⟨e, member, names⟩)
            obtain ⟨s', ran⟩ := ih { s with tree := s.tree.erase (p ++ [name]) } calm
              (by rw [dirs.resolve]; exact resolved) distinct.2
              (fun e member => by
                rw [node_erase_ne s.tree (apart e member)]; exact storedRest e member)
              ⟨long, longContent, later, unfit⟩
            refine ⟨s', ?_⟩
            simp only [removeFiles, run_sprintf, length_filepath, if_pos sized, run_remove calm,
              remove_child nonempty resolved here, if_true]
            exact ran
          · exact ⟨s, by simp only [removeFiles, run_sprintf, length_filepath, if_neg sized]⟩

theorem run_unregisterServ_long (s : Sys) {username : Bytes} (long : 244 ≤ username.length) :
    (unregisterServ username).run s = .error .overflow s := by
  simp only [unregisterServ, run_sprintf, length_folderOf_lt]
  rw [if_neg (by omega)]

theorem run_unregisterServ_absent (calm : s.faults = []) {username : Bytes}
    (short : username.length < 244) (absent : s.tree.opendir (folderOf username) = none) :
    (unregisterServ username).run s = .ok (ascii "1") s := by
  simp only [unregisterServ, run_sprintf, length_folderOf_lt, run_access, run_ite,
    run_opendir calm, absent, EStateM.run_pure]
  rw [if_pos (by omega), ite_self]

theorem unregister_fits {p : Path} {t : FileTree} {username : Bytes} :
    (∀ name content, (name, Node.file content) ∈ t.entries p →
        (folderOf username).length + 1 + name.length < 1024) ↔
      ∀ name content, t.node (p ++ [name]) = some (.file content) →
        13 + username.length + name.length < 1024 := by
  constructor
  · intro fits name content here
    have := fits name content (mem_entries.mpr here)
    rw [folderOf_length] at this
    omega
  · intro fits name content member
    have := fits name content (mem_entries.mp member)
    rw [folderOf_length]
    omega

theorem run_unregisterServ (calm : s.faults = []) {username : Bytes} {p : Path}
    (short : username.length < 244) (found : s.tree.find (folderOf username) = some (p, .dir))
    (fits : ∀ name content, s.tree.node (p ++ [name]) = some (.file content) →
      13 + username.length + name.length < 1024) :
    ∃ t', Emptied p s.tree t' ∧ ∃ handles,
      (unregisterServ username).run s =
        match t'.rmdir (folderOf username) with
        | some tree => .ok (ascii "0") { s with tree := tree, handles := handles }
        | none => .ok (ascii "2") { s with tree := t', handles := handles } := by
  have opened : s.tree.opendir (folderOf username) = some (s.tree.entries p) := by
    rw [FileTree.opendir, found]
  let s₁ : Sys := { s with handles := s.handles ++ [HandleEvent.opened s.handles.length] }
  obtain ⟨t', ran, dirs, gone, others⟩ := run_removeFiles (folderOf_ne_nil username)
    (s.tree.entries p) s₁ calm (find_node found).1 (entries_names_nodup s.tree p)
    (fun e member => mem_entries.mp member) (unregister_fits.mpr fits)
  refine ⟨t', ⟨dirs, fun name content here => gone name content (mem_entries.mpr here), ?_⟩,
    s₁.handles ++ [HandleEvent.closed s.handles.length], ?_⟩
  · intro q different
    apply others
    rintro name content member same
    exact different name content same (same ▸ mem_entries.mp member)
  · simp only [unregisterServ, run_sprintf, length_folderOf_lt, run_access, run_ite,
      run_opendir calm, opened, EStateM.run_pure, access_of_find found]
    rw [if_pos (by omega), if_neg (by simp)]
    rw [EStateM.run_bind, ran]
    simp only [Bool.not_true, Bool.false_eq_true, if_false, run_closedir]
    rw [run_rmdir (by exact calm)]
    cases t'.rmdir (folderOf username) <;> rfl

theorem run_unregisterServ_overflow (calm : s.faults = []) {username : Bytes} {p : Path}
    (short : username.length < 244) (found : s.tree.find (folderOf username) = some (p, .dir))
    (unfit : ∃ name content, s.tree.node (p ++ [name]) = some (.file content) ∧
      1024 ≤ 13 + username.length + name.length) :
    ∃ s', (unregisterServ username).run s = .error .overflow s' := by
  have opened : s.tree.opendir (folderOf username) = some (s.tree.entries p) := by
    rw [FileTree.opendir, found]
  obtain ⟨name, content, here, long⟩ := unfit
  let s₁ : Sys := { s with handles := s.handles ++ [HandleEvent.opened s.handles.length] }
  obtain ⟨s', ran⟩ := run_removeFiles_overflow (folderOf_ne_nil username)
    (s.tree.entries p) s₁ calm (find_node found).1 (entries_names_nodup s.tree p)
    (fun e member => mem_entries.mp member)
    ⟨name, content, mem_entries.mpr here, by rw [folderOf_length]; omega⟩
  refine ⟨s', ?_⟩
  simp only [unregisterServ, run_sprintf, length_folderOf_lt, run_access, run_ite,
    run_opendir calm, opened, EStateM.run_pure, access_of_find found]
  rw [if_pos (by omega), if_neg (by simp), EStateM.run_bind, ran]

/-! ## DISCONNECT: the copying loop -/

theorem run_copyOthers (username : Bytes) (temp : Stream) :
    ∀ (read : List Bytes) (userFound : Bool) (s : Sys) (content : Bytes),
      s.tree.node temp.path = some (.file content) →
      ∃ t', (copyOthers username (some temp) userFound read).run s =
          .ok (userFound || read.any fun line => username <:+: cString line)
            { s with tree := t' } ∧
        ChangesOnly temp.path s.tree t' ∧
        t'.node temp.path = some (.file (content ++
          ((read.filter fun line => !decide (username <:+: cString line)).map cString).flatten)) := by
  intro read
  induction read with
  | nil =>
      intro userFound s content here
      exact ⟨s.tree, by simp [copyOthers], ChangesOnly.refl _ _, by simpa using here⟩
  | cons line rest ih =>
      intro userFound s content here
      by_cases matched : username <:+: cString line
      · obtain ⟨t', ran, only, there⟩ := ih true s content here
        refine ⟨t', ?_, only, ?_⟩
        · simp [copyOthers, matched, ran]
        · simpa [matched] using there
      · have only₁ := append_changesOnly s.tree temp.path (cString line)
        obtain ⟨t', ran, only, there⟩ := ih userFound
          { s with tree := s.tree.append temp.path (cString line) } _
          (node_append here (cString line))
        refine ⟨t', ?_, only₁.trans only, ?_⟩
        · simp only [copyOthers, matched, if_false, run_fputs_some, ran]
          simp [matched]
        · simpa [matched] using there

/-- Without the temporary file the first line to keep is written to NULL. -/
theorem run_copyOthers_null (username : Bytes) :
    ∀ (read : List Bytes) (userFound : Bool) (s : Sys),
      (copyOthers username none userFound read).run s = .error .nullStream s ∨
        ∃ found, (copyOthers username none userFound read).run s = .ok found s := by
  intro read
  induction read with
  | nil => intro userFound s; exact Or.inr ⟨userFound, rfl⟩
  | cons line rest ih =>
      intro userFound s
      by_cases matched : username <:+: cString line
      · simpa only [copyOthers, matched, if_true] using ih true s
      · left
        simp only [copyOthers, matched, if_false, run_fputs_none]

/-- The tree once `fopen("../usuarios/temp.txt", "w")` has been tried. -/
def withTemp (t : FileTree) : FileTree := ((t.openWrite tempTxt).map Prod.snd).getD t

/-- What the copying loop leaves of the table. -/
def kept (username text : Bytes) : Bytes :=
  (((pieces 256 text).filter fun line => !decide (username <:+: cString line)).map cString).flatten

/-- `userFound` after the loop. -/
def matchesSome (username text : Bytes) : Bool :=
  (pieces 256 text).any fun line => username <:+: cString line

theorem run_disconnectServ_long (calm : s.faults = []) {username : Bytes}
    (long : 244 ≤ username.length) :
    ∃ s', (disconnectServ username).run s = .error .overflow s' := by
  have unfit : ¬ 12 + username.length < 256 := by omega
  simp only [disconnectServ, run_fopen, calm, run_sprintf, length_folderOf_lt, unfit, if_false]
  cases openFile s.tree conectadosTxt .update with
  | none => cases openFile s.tree tempTxt .write <;> exact ⟨_, rfl⟩
  | some opened =>
      obtain ⟨file, text, tree⟩ := opened
      simp only
      cases openFile tree tempTxt .write <;> exact ⟨_, rfl⟩

theorem withTemp_of_none {t : FileTree} (closed : t.openWrite tempTxt = none) :
    withTemp t = t := by
  rw [withTemp, closed]
  rfl

theorem withTemp_of_some {t t' : FileTree} {p : Path}
    (opened : t.openWrite tempTxt = some (p, t')) : withTemp t = t' := by
  rw [withTemp, opened]
  rfl

/-- A user without a folder: `fclose` gets the table's stream, open or not. -/
theorem run_disconnectServ_absent (calm : s.faults = []) {username : Bytes}
    (short : username.length < 244)
    (absent : (withTemp s.tree).access (folderOf username) = false) :
    (s.tree.openUpdate conectadosTxt = none →
      ∃ handles, (disconnectServ username).run s =
        .error .nullStream { s with tree := withTemp s.tree, handles := handles }) ∧
    (∀ opened, s.tree.openUpdate conectadosTxt = some opened →
      ∃ handles, (disconnectServ username).run s =
        .ok (ascii "1") { s with tree := withTemp s.tree, handles := handles }) := by
  have fits : 12 + username.length < 256 := by omega
  refine ⟨fun closed => ?_, fun opened update => ?_⟩
  · simp only [disconnectServ, run_fopen, calm, run_sprintf, length_folderOf_lt, fits, if_true,
      openFile, closed, Option.map_none, run_ite, run_access]
    cases temp : s.tree.openWrite tempTxt with
    | none =>
        rw [withTemp_of_none temp] at absent ⊢
        refine ⟨s.handles, ?_⟩
        simp only [absent, Option.map_none, Bool.not_false, if_true, run_fclose_none, ← calm]
    | some created =>
        rw [withTemp_of_some temp] at absent ⊢
        exact ⟨_, by
          simp only [absent, Option.map_some, Bool.not_false, if_true, run_fclose_none]; rfl⟩
  · simp only [disconnectServ, run_fopen, calm, run_sprintf, length_folderOf_lt, fits, if_true,
      openFile, update, Option.map_some, run_ite, run_access]
    cases temp : s.tree.openWrite tempTxt with
    | none =>
        rw [withTemp_of_none temp] at absent ⊢
        exact ⟨_, by
          simp only [absent, Option.map_none, Bool.not_false, if_true, run_fclose_some]; rfl⟩
    | some created =>
        rw [withTemp_of_some temp] at absent ⊢
        exact ⟨_, by
          simp only [absent, Option.map_some, Bool.not_false, if_true, run_fclose_some]; rfl⟩

theorem run_disconnectServ_noTable (calm : s.faults = []) {username : Bytes}
    (short : username.length < 244)
    (present : (withTemp s.tree).access (folderOf username) = true)
    (closed : s.tree.openUpdate conectadosTxt = none) :
    ∃ handles, (disconnectServ username).run s =
      .ok (ascii "3") { s with tree := withTemp s.tree, handles := handles } := by
  have fits : 12 + username.length < 256 := by omega
  simp only [disconnectServ, run_fopen, calm, run_sprintf, length_folderOf_lt, fits, if_true,
    openFile, closed, Option.map_none, run_ite, run_access]
  cases temp : s.tree.openWrite tempTxt with
  | none =>
      rw [withTemp_of_none temp] at present ⊢
      refine ⟨s.handles, ?_⟩
      simp only [present, Option.map_none, Option.isNone_none, Bool.not_true, if_true,
        Bool.false_eq_true, if_false, EStateM.run_pure, ← calm]
  | some created =>
      rw [withTemp_of_some temp] at present ⊢
      exact ⟨_, by
        simp only [present, Option.map_some, Option.isNone_none, Bool.not_true, if_true,
          Bool.false_eq_true, if_false]; rfl⟩

/-- Without temp.txt the lines to keep, or else the closing `fclose`, meet NULL. -/
theorem run_disconnectServ_noTemp (calm : s.faults = []) {username : Bytes}
    (short : username.length < 244) (present : s.tree.access (folderOf username) = true)
    {opened : Path × Bytes} (update : s.tree.openUpdate conectadosTxt = some opened)
    (closed : s.tree.openWrite tempTxt = none) :
    ∃ handles, (disconnectServ username).run s =
      .error .nullStream { s with handles := handles } := by
  have fits : 12 + username.length < 256 := by omega
  simp only [disconnectServ, run_fopen, calm, run_sprintf, length_folderOf_lt, fits, if_true,
    openFile, update, closed, Option.map_some, Option.map_none, run_access, present,
    Bool.not_true, Bool.false_eq_true, if_false, Option.isNone_some, run_unread_some]
  rw [EStateM.run_bind]
  rcases run_copyOthers_null username (pieces 256 opened.2) false _ with failed | ⟨found, ran⟩
  · exact ⟨_, by rw [failed]⟩
  · exact ⟨_, by simp only [ran, run_fclose_some, run_fclose_none]; rfl⟩

theorem rooted_of_changesOnly {t t' : FileTree} {p : Path} (only : ChangesOnly p t t')
    (notDir : t.node p ≠ some .dir) (rooted : Rooted t) : Rooted t' := by
  have elsewhere : t.cwd ≠ p := by
    rintro rfl
    exact notDir rooted
  rw [Rooted, only.cwd, only.others _ elsewhere]
  exact rooted

/-- What DISCONNECT does to the tree when both files open. -/
structure Swapped (username text : Bytes) (t t' : FileTree) : Prop where
  cwd : t'.cwd = t.cwd
  tableKept : t'.node (tablePath t) = some (.file (kept username text))
  tempGone : t'.node (tempPath t) = none
  others : ∀ q, q ≠ tablePath t → q ≠ tempPath t → t'.node q = t.node q

theorem swap_table {t : FileTree} {old new : Bytes} (rooted : Rooted t)
    (tableHere : t.node (tablePath t) = some (.file old))
    (tempHere : t.node (tempPath t) = some (.file new)) :
    ∃ t₁ t₂, t.remove conectadosTxt = some t₁ ∧ t₁.rename tempTxt conectadosTxt = some t₂ ∧
      t₂.cwd = t.cwd ∧ t₂.node (tablePath t) = some (.file new) ∧
      t₂.node (tempPath t) = none ∧
      ∀ q, q ≠ tablePath t → q ≠ tempPath t → t₂.node q = t.node q := by
  have apart := tempPath_ne_tablePath t
  have dirs₁ := erase_file_sameDirs tableHere
  have gone := node_erase_self (removable_of_file tableHere)
  have tempThere : (t.erase (tablePath t)).node (tempPath t) = some (.file new) := by
    rw [node_erase_ne t apart, tempHere]
  have rooted₁ : Rooted (t.erase (tablePath t)) := (rooted_congr dirs₁).mpr rooted
  have foundTemp : (t.erase (tablePath t)).find tempTxt = some (tempPath t, .file new) := by
    rw [tempTxt_eq, find_name rooted₁ valid_temp, usuarios_congr dirs₁.cwd, ← tempPath, tempThere]
    rfl
  have targetTable : (t.erase (tablePath t)).resolve conectadosTxt = some (tablePath t) := by
    have inside := (dirs₁.dirs _).mpr (usuarios_isDir tableHere)
    rw [conectadosTxt_eq, resolve_name rooted₁ valid_conectados, usuarios_congr dirs₁.cwd,
      if_pos inside, ← tablePath]
  have dirs₂ := erase_file_sameDirs tempThere
  have fits : ((t.erase (tablePath t)).erase (tempPath t)).Placeable (tablePath t) := by
    obtain ⟨nonempty, valid, inside, _⟩ := placeable_of_file tableHere
    refine ⟨nonempty, valid, (dirs₂.dirs _).mpr ((dirs₁.dirs _).mpr inside), ?_⟩
    rw [node_erase_ne _ apart.symm, gone]
    simp
  refine ⟨t.erase (tablePath t),
    ((t.erase (tablePath t)).erase (tempPath t)).put (tablePath t) (.file new), ?_, ?_, by simp,
    node_put_self fits _, ?_, ?_⟩
  · rw [FileTree.remove, find_table rooted, tableHere]
    rfl
  · rw [FileTree.rename, foundTemp, targetTable]
    simp only
    rw [gone, if_neg (by simp [getLast?_folderOf_valid valid_conectados, conectadosTxt_eq]),
      if_neg apart]
  · rw [node_put_ne _ _ apart, node_erase_self (removable_of_file tempThere)]
  · intro q notTable notTemp
    rw [node_put_ne _ _ notTable, node_erase_ne _ notTemp, node_erase_ne _ notTable]

theorem openWrite_temp {t t₁ : FileTree} {q : Path} (rooted : Rooted t)
    (created : t.openWrite tempTxt = some (q, t₁)) : q = tempPath t := by
  have free := (openWrite_some created).1
  rw [creatable_temp rooted] at free
  split at free
  · exact (Option.some.inj free).symm
  · contradiction

theorem run_disconnectServ (calm : s.faults = []) {username text : Bytes}
    (short : username.length < 244)
    (present : (withTemp s.tree).access (folderOf username) = true)
    {p q : Path} {t₁ : FileTree} (update : s.tree.openUpdate conectadosTxt = some (p, text))
    (created : s.tree.openWrite tempTxt = some (q, t₁)) :
    ∃ t' handles, (disconnectServ username).run s =
        .ok (if matchesSome username text then ascii "0" else ascii "2")
          { s with tree := t', handles := handles } ∧ Swapped username text s.tree t' := by
  have fits : 12 + username.length < 256 := by omega
  obtain ⟨rooted, rfl, tableHere⟩ := openUpdate_table.mp update
  rw [table_eq_some] at tableHere
  obtain rfl := openWrite_temp rooted created
  obtain ⟨free, empty, only₁⟩ := openWrite_some created
  have notDir := (creatable_some free).2.1
  have rooted₁ := rooted_of_changesOnly only₁ notDir rooted
  have apart := tempPath_ne_tablePath s.tree
  rw [withTemp_of_some created] at present
  simp only [disconnectServ, run_fopen, calm, run_sprintf, length_folderOf_lt, fits, if_true,
    openFile, update, created, Option.map_some, run_access, present, Bool.not_true,
    Bool.false_eq_true, if_false, Option.isNone_some, run_unread_some]
  let one := s.handles ++ [HandleEvent.opened s.handles.length]
  let both := one ++ [HandleEvent.opened one.length]
  obtain ⟨t₂, ran, only₂, copied⟩ := run_copyOthers username ⟨one.length, tempPath s.tree, []⟩
    (pieces 256 text) false { tree := t₁, faults := [], handles := both }
    [] empty
  have only := only₁.trans only₂
  have cwd₂ : t₂.cwd = s.tree.cwd := only.cwd
  obtain ⟨t₃, t₄, removed, renamed, cwd₄, tableNow, tempNow, others⟩ :=
    swap_table (t := t₂) (rooted_of_changesOnly only₂ (by rw [empty]; simp) rooted₁)
      (by rw [tablePath_congr cwd₂, only.others _ apart.symm]; exact tableHere)
      (by rw [tempPath_congr cwd₂]; exact copied)
  rw [tablePath_congr cwd₂] at tableNow others
  rw [tempPath_congr cwd₂] at tempNow others
  refine ⟨t₄, both ++ [HandleEvent.closed s.handles.length] ++ [HandleEvent.closed one.length], ?_,
    ⟨cwd₄.trans cwd₂, tableNow, tempNow, ?_⟩⟩
  · rw [EStateM.run_bind, ran]
    simp only [run_fclose_some]
    rw [run_remove (by rfl), removed]
    simp only
    rw [run_rename (by rfl), renamed, Bool.false_or, matchesSome]
    simp only
    split <;> rfl
  · intro r notTable notTemp
    rw [others r notTable notTemp, only.others r notTemp]

end DistrApp.Server
