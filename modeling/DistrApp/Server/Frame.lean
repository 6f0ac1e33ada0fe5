import DistrApp.Server.Serve

/-!
# What stays outside a user's folder

The names are spliced into paths without any check.  For a user name that is
one valid component and a file name without slashes, REGISTER, UNREGISTER,
PUBLISH and DELETE touch nothing but the user's folder and its entries,
wherever they stop and whatever calls fail on the way.
-/

set_option autoImplicit false

namespace DistrApp.Server

open Text FileTree Effects

/-- `t'` is `t` except for the folder of `username` and the entries in it; a
regular file in the folder's place has not appeared, changed or gone. -/
structure OnlyFolder (t : FileTree) (username : Bytes) (t' : FileTree) : Prop where
  cwd : t'.cwd = t.cwd
  outside : ∀ q, q ≠ usuarios t ++ [username] → (∀ name, q ≠ usuarios t ++ [username, name]) →
    t'.node q = t.node q
  own : ∀ content, t'.node (usuarios t ++ [username]) = some (.file content) ↔
    t.node (usuarios t ++ [username]) = some (.file content)

theorem OnlyFolder.refl (t : FileTree) (username : Bytes) : OnlyFolder t username t :=
  ⟨rfl, fun _ _ _ => rfl, fun _ => Iff.rfl⟩

/-- The table lies outside every folder that such an operation can create. -/
theorem OnlyFolder.table_eq {t t' : FileTree} {username : Bytes} (only : OnlyFolder t username t') :
    table t' = table t := by
  by_cases own : tablePath t = usuarios t ++ [username]
  · have files := only.own
    rw [← own] at files
    apply Option.ext
    intro content
    rw [table_eq_some, table_eq_some, tablePath_congr only.cwd]
    exact files content
  · apply table_of_node_eq only.cwd
    apply only.outside _ own
    intro name same
    have names := List.append_cancel_left same
    simp at names

theorem OnlyFolder.folder {t t₁ t₂ : FileTree} {username : Bytes} (only : OnlyFolder t username t₁)
    (changed : ChangesOnly (usuarios t ++ [username]) t₁ t₂)
    (before : ∀ content, t₁.node (usuarios t ++ [username]) ≠ some (.file content))
    (after : ∀ content, t₂.node (usuarios t ++ [username]) ≠ some (.file content)) :
    OnlyFolder t username t₂ := by
  refine ⟨changed.cwd.trans only.cwd, fun q notFolder notEntry => ?_, fun content => ?_⟩
  · rw [changed.others q notFolder, only.outside q notFolder notEntry]
  · constructor
    · intro here; exact absurd here (after content)
    · intro here; exact absurd ((only.own content).mpr here) (before content)

theorem OnlyFolder.entry {t t₁ t₂ : FileTree} {username : Bytes} {name : Name}
    (only : OnlyFolder t username t₁)
    (changed : ChangesOnly (usuarios t ++ [username, name]) t₁ t₂) :
    OnlyFolder t username t₂ := by
  refine ⟨changed.cwd.trans only.cwd, fun q notFolder notEntry => ?_, fun content => ?_⟩
  · rw [changed.others q (notEntry name), only.outside q notFolder notEntry]
  · rw [changed.others _ (by simp), only.own]

/-! ## The paths of one user -/

theorem fileOf_eq (username fileName : Bytes) :
    fileOf (folderOf username) fileName =
      folderOf username ++ slash :: (fileName ++ ascii ".txt") := by
  simp [fileOf, show ascii "/" = [slash] by decide]

theorem valid_txt {fileName : Bytes} (plain : slash ∉ fileName) :
    ValidName (fileName ++ ascii ".txt") := by
  have long : 4 ≤ (fileName ++ ascii ".txt").length := by
    rw [List.length_append, show (ascii ".txt").length = 4 by decide]
    omega
  refine ⟨?_, ?_, ?_, ?_⟩
  · rintro empty
    rw [empty] at long
    simp at long
  · rintro same
    rw [same] at long
    simp [dot] at long
  · rintro same
    rw [same] at long
    simp [dotdot] at long
  · rw [List.mem_append, not_or]
    exact ⟨plain, by decide⟩

theorem resolve_folder {t : FileTree} {username : Bytes} (valid : ValidName username) {q : Path}
    (resolved : t.resolve (folderOf username) = some q) : q = usuarios t ++ [username] := by
  rw [resolve_name (rooted_of_resolve resolved) valid] at resolved
  split at resolved
  · exact (Option.some.inj resolved).symm
  · contradiction

theorem resolve_inside {t : FileTree} {username entry : Bytes} (valid : ValidName username)
    (validEntry : ValidName entry) {q : Path}
    (resolved : t.resolve (folderOf username ++ slash :: entry) = some q) :
    q = usuarios t ++ [username, entry] := by
  rw [resolve_append_slash t (folderOf_ne_nil username)] at resolved
  obtain ⟨p, folder, walked⟩ := Option.bind_eq_some_iff.mp resolved
  obtain rfl := resolve_folder valid folder
  rw [components_valid validEntry] at walked
  simp only [walk] at walked
  split at walked
  · rw [enter_valid validEntry] at walked
    simpa using (Option.some.inj walked).symm
  · contradiction

/-! ## The calls -/

section Calls
variable {t : FileTree} {username : Bytes}

/-- The tree of a state, seen from the tree at the start. -/
def Framed (t : FileTree) (username : Bytes) (s : Sys) : Prop := OnlyFolder t username s.tree

theorem preserves_sprintf (size : Nat) (text : Bytes) :
    Preserves (Framed t username) (sprintf size text) fun written => written = text :=
  Preserves.ite (fun _ => Preserves.pure rfl) (fun _ => Preserves.throw _)

theorem preserves_access (path : Bytes) :
    Preserves (Framed t username) (access path) fun _ => True := by
  intro s framed
  exact ⟨framed, fun _ _ _ => trivial⟩

theorem preserves_nextFault : Preserves (Framed t username) nextFault fun _ => True := by
  intro s framed
  refine ⟨?_, fun _ _ _ => trivial⟩
  simp only [nextFault, EStateM.run]
  split <;> exact framed

theorem preserves_change {attempt : FileTree → Option FileTree}
    (keeps : ∀ t₁ t₂, OnlyFolder t username t₁ → attempt t₁ = some t₂ →
      OnlyFolder t username t₂) :
    Preserves (Framed t username) (change attempt) fun _ => True := by
  apply Preserves.bind preserves_nextFault
  rintro fault -
  cases fault with
  | true => exact Preserves.pure trivial
  | false =>
      intro s framed
      cases attempted : attempt s.tree with
      | none =>
          simp only [Bool.false_eq_true, if_false, EStateM.run_bind, EStateM.run_get, attempted]
          exact ⟨framed, fun _ _ _ => trivial⟩
      | some tree =>
          simp only [Bool.false_eq_true, if_false, EStateM.run_bind, EStateM.run_get, attempted,
            EStateM.run_set]
          exact ⟨keeps _ _ framed attempted, fun _ _ _ => trivial⟩

theorem preserves_fopen {path : Bytes} {mode : Mode} {P : Path → Prop}
    (keeps : ∀ t₁ file text t₂, OnlyFolder t username t₁ →
      openFile t₁ path mode = some (file, text, t₂) → OnlyFolder t username t₂ ∧ P file) :
    Preserves (Framed t username) (fopen path mode) fun stream => ∀ f, stream = some f → P f.path := by
  apply Preserves.bind preserves_nextFault
  rintro fault -
  cases fault with
  | true => exact Preserves.pure fun f absurdity => by cases absurdity
  | false =>
      intro s framed
      simp only [Bool.false_eq_true, if_false, EStateM.run_bind, EStateM.run_get]
      cases opened : openFile s.tree path mode with
      | none =>
          refine ⟨framed, fun a s' ran => ?_⟩
          cases ran
          intro f absurdity
          cases absurdity
      | some file =>
          obtain ⟨file, text, tree⟩ := file
          obtain ⟨only, place⟩ := keeps _ _ _ _ framed opened
          refine ⟨only, fun a s' ran => ?_⟩
          cases ran
          intro f same
          cases same
          exact place

theorem preserves_opendir (path : Bytes) :
    Preserves (Framed t username) (opendir path) fun dir =>
      ∀ d, dir = some d → ∀ e ∈ d.entries, ValidName e.1 := by
  apply Preserves.bind preserves_nextFault
  rintro fault -
  cases fault with
  | true => exact Preserves.pure fun d absurdity => by cases absurdity
  | false =>
      intro s framed
      simp only [Bool.false_eq_true, if_false, EStateM.run_bind, EStateM.run_get]
      cases opened : s.tree.opendir path with
      | none =>
          refine ⟨framed, fun a s' ran => ?_⟩
          cases ran
          intro d absurdity
          cases absurdity
      | some entries =>
          obtain ⟨p, _, rfl⟩ := find_of_opendir opened
          refine ⟨framed, fun a s' ran => ?_⟩
          cases ran
          intro d same
          cases same
          rintro ⟨name, n⟩ member
          exact (node_parent (t := s.tree) (by rw [mem_entries.mp member]; simp)).2

theorem preserves_closeHandle (id : Nat) :
    Preserves (Framed t username) (closeHandle id) fun _ => True := by
  intro s framed
  exact ⟨framed, fun _ _ _ => trivial⟩

theorem preserves_fclose (stream : Option Stream) :
    Preserves (Framed t username) (fclose stream) fun _ => True := by
  cases stream with
  | none => exact Preserves.throw _
  | some f => exact preserves_closeHandle f.id

theorem preserves_unread (stream : Option Stream) :
    Preserves (Framed t username) (unread stream) fun _ => True := by
  cases stream with
  | none => exact Preserves.throw _
  | some f => exact Preserves.pure trivial

theorem preserves_findWord (size : Nat) (user : Bytes) (seen : List Bytes) :
    Preserves (Framed t username) (findWord size user seen) fun _ => True := by
  unfold findWord
  split
  · exact Preserves.pure trivial
  · exact Preserves.throw _

theorem preserves_mkdir (valid : ValidName username) :
    Preserves (Framed t username) (mkdir (folderOf username)) fun _ => True := by
  apply preserves_change
  intro t₁ t₂ only made
  obtain ⟨p, resolved, absent, dir, changed⟩ := mkdir_some made
  have place := resolve_folder valid resolved
  rw [usuarios_congr only.cwd] at place
  subst place
  exact only.folder changed (fun content => by rw [absent]; simp) (fun content => by rw [dir]; simp)

theorem preserves_rmdir (valid : ValidName username) :
    Preserves (Framed t username) (rmdir (folderOf username)) fun _ => True := by
  apply preserves_change
  intro t₁ t₂ only removed
  obtain ⟨p, found, _, gone, changed⟩ := rmdir_some removed
  have place := resolve_folder valid (find_node found).1
  rw [usuarios_congr only.cwd] at place
  subst place
  exact only.folder changed (fun content => by rw [(find_node found).2]; simp)
    (fun content => by rw [gone]; simp)

theorem preserves_remove (valid : ValidName username) {entry : Bytes} (validEntry : ValidName entry) :
    Preserves (Framed t username) (remove (folderOf username ++ slash :: entry)) fun _ => True := by
  apply preserves_change
  intro t₁ t₂ only removed
  obtain ⟨p, n, found, _, _, changed⟩ := remove_some removed
  have place := resolve_inside valid validEntry (find_node found).1
  rw [usuarios_congr only.cwd] at place
  subst place
  exact only.entry changed

theorem preserves_openTable :
    Preserves (Framed t username) (fopen conectadosTxt .read) fun _ => True := by
  apply Preserves.weaken (fun _ _ => trivial)
  apply preserves_fopen (P := fun _ => True)
  intro t₁ file text t₂ only opened
  obtain ⟨_, _, shape⟩ := Option.map_eq_some_iff.mp opened
  cases shape
  exact ⟨only, trivial⟩

theorem preserves_openEntry (valid : ValidName username) {entry : Bytes}
    (validEntry : ValidName entry) :
    Preserves (Framed t username) (fopen (folderOf username ++ slash :: entry) .write)
      fun stream => ∀ f, stream = some f → f.path = usuarios t ++ [username, entry] := by
  apply preserves_fopen (P := fun file => file = usuarios t ++ [username, entry])
  intro t₁ file text t₂ only opened
  obtain ⟨⟨q, t₃⟩, created, shape⟩ := Option.map_eq_some_iff.mp opened
  cases shape
  obtain ⟨free, _, changed⟩ := openWrite_some created
  have place := resolve_inside valid validEntry (creatable_some free).1
  rw [usuarios_congr only.cwd] at place
  subst place
  exact ⟨only.entry changed, rfl⟩

theorem preserves_fputs {stream : Option Stream} {name : Name} (text : Bytes)
    (place : ∀ f, stream = some f → f.path = usuarios t ++ [username, name]) :
    Preserves (Framed t username) (fputs text stream) fun _ => True := by
  cases stream with
  | none => exact Preserves.throw _
  | some f =>
      intro s framed
      refine ⟨?_, fun _ _ _ => trivial⟩
      have changed := append_changesOnly s.tree f.path text
      rw [place f rfl] at changed
      have after := OnlyFolder.entry framed changed
      rw [← place f rfl] at after
      exact after

end Calls

/-! ## The operations -/

section Operations
variable {t : FileTree} {username : Bytes}

theorem preserves_registerServ (valid : ValidName username) :
    Preserves (Framed t username) (registerServ username) fun _ => True := by
  unfold registerServ
  refine Preserves.ite (fun _ => Preserves.pure trivial) fun _ => ?_
  refine Preserves.bind (preserves_sprintf _ _) ?_
  rintro _ rfl
  refine Preserves.bind (preserves_access _) fun _ _ => ?_
  refine Preserves.ite (fun _ => Preserves.pure trivial) fun _ => ?_
  refine Preserves.bind (preserves_mkdir valid) fun _ _ => ?_
  exact Preserves.ite (fun _ => Preserves.pure trivial) fun _ => Preserves.pure trivial

theorem preserves_removeFiles (valid : ValidName username) {listed : List (Name × Node)}
    (names : ∀ e ∈ listed, ValidName e.1) :
    Preserves (Framed t username) (removeFiles (folderOf username) listed) fun _ => True := by
  induction listed with
  | nil => exact Preserves.pure trivial
  | cons e rest ih =>
      have later := ih fun e member => names e (List.mem_cons_of_mem _ member)
      obtain ⟨name, n⟩ := e
      cases n with
      | dir => exact later
      | file content =>
          refine Preserves.bind (preserves_sprintf _ _) ?_
          rintro _ rfl
          rw [show ascii "/" = [slash] by decide, List.append_assoc, List.singleton_append]
          refine Preserves.bind (preserves_remove valid (names _ List.mem_cons_self)) fun _ _ => ?_
          exact Preserves.ite (fun _ => later) fun _ => Preserves.pure trivial

theorem preserves_unregisterServ (valid : ValidName username) :
    Preserves (Framed t username) (unregisterServ username) fun _ => True := by
  unfold unregisterServ
  refine Preserves.bind (preserves_sprintf _ _) ?_
  rintro _ rfl
  refine Preserves.bind (preserves_access _) fun _ _ => ?_
  refine Preserves.ite (fun _ => Preserves.pure trivial) fun _ => ?_
  refine Preserves.bind (preserves_opendir _) fun dir names => ?_
  cases dir with
  | none => exact Preserves.pure trivial
  | some dir =>
      refine Preserves.bind (preserves_removeFiles valid (names dir rfl)) fun _ _ => ?_
      refine Preserves.ite (fun _ => ?_) fun _ => ?_
      · exact Preserves.bind (preserves_closeHandle _) fun _ _ => Preserves.pure trivial
      · refine Preserves.bind (preserves_closeHandle _) fun _ _ => ?_
        refine Preserves.bind (preserves_rmdir valid) fun _ _ => ?_
        exact Preserves.ite (fun _ => Preserves.pure trivial) fun _ => Preserves.pure trivial

theorem preserves_publishServ (valid : ValidName username) {fileName : Bytes}
    (plain : slash ∉ fileName) (description : Bytes) :
    Preserves (Framed t username) (publishServ username fileName description) fun _ => True := by
  have writing : Preserves (Framed t username)
      (if fileName = ascii "notfound" then (pure (ascii "4") : Op Bytes)
        else do
          let filepath ← sprintf 256 (fileOf (folderOf username) fileName)
          let file ← fopen filepath .write
          if file.isNone then
            return ascii "4"
          fputs (description ++ [newline]) file
          fclose file
          return ascii "0") fun _ => True := by
    refine Preserves.ite (fun _ => Preserves.pure trivial) fun _ => ?_
    refine Preserves.bind (preserves_sprintf _ _) ?_
    rintro _ rfl
    rw [fileOf_eq]
    refine Preserves.bind (preserves_openEntry valid (valid_txt plain)) fun file place => ?_
    refine Preserves.ite (fun _ => Preserves.pure trivial) fun _ => ?_
    refine Preserves.bind (preserves_fputs _ place) fun _ _ => ?_
    exact Preserves.bind (preserves_fclose _) fun _ _ => Preserves.pure trivial
  unfold publishServ
  refine Preserves.bind (preserves_sprintf _ _) ?_
  rintro _ rfl
  refine Preserves.bind (preserves_sprintf _ _) ?_
  rintro _ rfl
  refine Preserves.bind (preserves_access _) fun _ _ => ?_
  refine Preserves.ite (fun _ => Preserves.pure trivial) fun _ => ?_
  refine Preserves.bind (preserves_access _) fun _ _ => ?_
  refine Preserves.ite (fun _ => Preserves.pure trivial) fun _ => ?_
  refine Preserves.bind preserves_openTable fun _ _ => ?_
  refine Preserves.ite (fun _ => Preserves.pure trivial) fun _ => ?_
  refine Preserves.bind (preserves_unread _) fun _ _ => ?_
  refine Preserves.bind (preserves_findWord _ _ _) fun found _ => ?_
  cases found with
  | true => exact Preserves.bind (preserves_fclose _) fun _ _ => writing
  | false => exact writing

theorem preserves_deleteServ (valid : ValidName username) {fileName : Bytes}
    (plain : slash ∉ fileName) :
    Preserves (Framed t username) (deleteServ username fileName) fun _ => True := by
  unfold deleteServ
  refine Preserves.ite (fun _ => Preserves.pure trivial) fun _ => ?_
  refine Preserves.bind (preserves_sprintf _ _) ?_
  rintro _ rfl
  refine Preserves.bind (preserves_access _) fun _ _ => ?_
  refine Preserves.ite (fun _ => Preserves.pure trivial) fun _ => ?_
  refine Preserves.bind preserves_openTable fun _ _ => ?_
  refine Preserves.ite (fun _ => Preserves.pure trivial) fun _ => ?_
  refine Preserves.bind (preserves_sprintf _ _) ?_
  rintro _ rfl
  rw [fileOf_eq]
  refine Preserves.bind (preserves_remove valid (valid_txt plain)) fun _ _ => ?_
  exact Preserves.ite (fun _ => Preserves.pure trivial) fun _ => Preserves.pure trivial

end Operations

/-- The four requests that change folders and published files. -/
def EditsFolder : Request → Prop
  | .register _ => True
  | .unregister _ => True
  | .publish _ _ _ => True
  | .delete _ _ => True
  | _ => False

/-- The user name is one component, and so is the name of the file. -/
def PlainNames : Request → Prop
  | .publish username fileName _ => ValidName username ∧ slash ∉ fileName
  | .delete username fileName => ValidName username ∧ slash ∉ fileName
  | request => ValidName request.username

theorem preserves_answer {t : FileTree} {username : Bytes} {op : Op Bytes}
    (preserves : Preserves (Framed t username) op fun _ => True) :
    Preserves (Framed t username) (answer op) fun _ => True :=
  Preserves.bind preserves fun _ _ => Preserves.pure trivial

theorem edits_only_folder (s : Sys) (request : Request) (edits : EditsFolder request)
    (names : PlainNames request) :
    OnlyFolder s.tree request.username (stopped ((serve request).run s)).tree ∧
      table (stopped ((serve request).run s)).tree = table s.tree := by
  have framed : Preserves (Framed s.tree request.username) (serve request) fun _ => True := by
    cases request with
    | register username => exact preserves_answer (preserves_registerServ names)
    | unregister username => exact preserves_answer (preserves_unregisterServ names)
    | publish username fileName description =>
        exact preserves_answer (preserves_publishServ names.1 names.2 description)
    | delete username fileName => exact preserves_answer (preserves_deleteServ names.1 names.2)
    | connect _ _ _ => cases edits
    | disconnect _ => cases edits
    | listUsers _ => cases edits
    | listContent _ _ => cases edits
  have only : OnlyFolder s.tree request.username (stopped ((serve request).run s)).tree :=
    (framed s (OnlyFolder.refl s.tree request.username)).1
  exact ⟨only, only.table_eq⟩

theorem edits_only_folder_ana :
    OnlyFolder firstStart (ascii "ana")
        (stopped ((serve (.register (ascii "ana"))).run ⟨firstStart, [], []⟩)).tree ∧
      table (stopped ((serve (.register (ascii "ana"))).run ⟨firstStart, [], []⟩)).tree =
        table firstStart :=
  edits_only_folder ⟨firstStart, [], []⟩ (.register (ascii "ana")) trivial
    (show ValidName (ascii "ana") by decide)

/-- With a file name `../conectados`, or with the user name `.`, the table goes. -/
theorem edits_reach_table :
    (¬ ∀ (t : FileTree) (request : Request) (s : Sys), Reachable t → EditsFolder request →
        request.Deliverable → ValidName request.username → s.tree = t →
        OnlyFolder t request.username (stopped ((serve request).run s)).tree ∧
          table (stopped ((serve request).run s)).tree = table t) ∧
      ¬ ∀ (t : FileTree) (username : Bytes) (s : Sys), Reachable t →
        (Request.unregister username).Deliverable → s.tree = t →
        OnlyFolder t username (stopped ((serve (.unregister username)).run s)).tree ∧
          table (stopped ((serve (.unregister username)).run s)).tree = table t := by
  constructor
  · intro framed
    have reached : Reachable (treeAfter firstStart [.register (ascii "ana")]) :=
      reachable_treeAfter (by decide) (by decide)
    have after := (framed _ (.delete (ascii "ana") (ascii "../conectados")) ⟨_, [], []⟩ reached
      (by trivial) (by decide) (show ValidName (ascii "ana") by decide) rfl).2
    exact absurd after (by decide +kernel)
  · intro framed
    have reached : Reachable firstStart := ⟨firstStart, by decide, [], .start⟩
    have after := (framed _ (ascii ".") ⟨_, [], []⟩ reached (by decide) rfl).2
    exact absurd after (by decide +kernel)

end DistrApp.Server
