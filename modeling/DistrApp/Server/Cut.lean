import DistrApp.Server.Contained
import DistrApp.Server.Guards

/-!
# Requests that are cut off

At the end of the stream `readLine` returns 0, or the part of a field that has
arrived, and the handler only tests for -1: it serves the request in the bytes
it got, with empty fields for those that are missing.  `Harmless` says when
that request leaves the store as it was.
-/

set_option autoImplicit false

namespace DistrApp.Server

open Text FileTree Effects

/-- temp.txt is the scratch file of DISCONNECT, which leaves it there empty. -/
def unscratched : Option Node → Option Node
  | some (.file []) => none
  | found => found

/-- The store is as before, up to an empty temp.txt.  One with text in it has been
published under that name. -/
structure SameStore (t t' : FileTree) : Prop where
  cwd : t'.cwd = t.cwd
  nodes : ∀ q, q ≠ tempPath t → t'.node q = t.node q
  temp : unscratched (t'.node (tempPath t)) = unscratched (t.node (tempPath t))

/-- However the stream is delivered, the handler leaves no array, and the store
as it was. -/
def CutUnchanged (s : Sys) (bytes : Bytes) : Prop :=
  ∀ (env : Surroundings) (input : List ReadResult) (writes : List WriteResult),
    Delivers input bytes →
      (∀ e c, (tratarMensaje env).run (Conn.accepted s input writes) = .error e c → ¬ e.Escapes) ∧
        SameStore s.tree (handled env (Conn.accepted s input writes)).sys.tree

/-- `fopen("../usuarios/temp.txt", "w")` takes no text away. -/
def TempClear (t : FileTree) : Prop :=
  t.openWrite tempTxt = none ∨ ∀ content, t.node (tempPath t) = some (.file content) → content = []

/-- The request finds nothing to do on this tree. -/
def Harmless (t : FileTree) : Request → Prop
  | .register username =>
      username.length = 0 ∨ username.length > 256 ∨ t.access (folderOf username) = true ∨
        t.mkdir (folderOf username) = none
  | .unregister username =>
      ∀ p, t.find (folderOf username) = some (p, .dir) →
        (∀ name content, t.node (p ++ [name]) = some (.file content) →
            p ++ [name] = tempPath t ∧ content = []) ∧
          ((∃ name, t.node (p ++ [name]) = some .dir) ∨
            (components (folderOf username)).getLast? = some dot ∨
            (components (folderOf username)).getLast? = some dotdot)
  | .connect username _ _ =>
      t.access (folderOf username) = false ∨ t.openAppend conectadosTxt = none ∨
        ∃ text, table t = some text ∧ scanWords 256 username (words text) = some true
  | .disconnect username =>
      TempClear t ∧ ((withTemp t).access (folderOf username) = false ∨ t.openWrite tempTxt = none ∨
        ∀ text, table t = some text → kept username text = text)
  | .publish username fileName _ =>
      t.access (folderOf username) = false ∨
        t.access (fileOf (folderOf username) fileName) = true ∨
        t.openRead conectadosTxt = none ∨ fileName = ascii "notfound" ∨
        t.openWrite (fileOf (folderOf username) fileName) = none
  | .delete username fileName =>
      fileName.length = 0 ∨ fileName.length > 256 ∨ t.access (folderOf username) = false ∨
        t.openRead conectadosTxt = none ∨ t.remove (fileOf (folderOf username) fileName) = none ∨
        t.find (fileOf (folderOf username) fileName) = some (tempPath t, .file [])
  | .listUsers _ => True
  | .listContent _ _ => True

/-! ## Trees with the same store -/

section Store
variable {t t' : FileTree} {p : Path}

theorem unscratched_dir {found : Option Node} : unscratched found = some .dir ↔ found = some .dir := by
  match found with
  | none => simp [unscratched]
  | some .dir => simp [unscratched]
  | some (.file []) => simp [unscratched]
  | some (.file (_ :: _)) => simp [unscratched]

theorem unscratched_none {found : Option Node} :
    unscratched found = none ↔ found = none ∨ found = some (.file []) := by
  match found with
  | none => simp [unscratched]
  | some .dir => simp [unscratched]
  | some (.file []) => simp [unscratched]
  | some (.file (_ :: _)) => simp [unscratched]

theorem unscratched_clear {found : Option Node} (notDir : found ≠ some .dir) :
    unscratched found = none ↔ ∀ content, found = some (.file content) → content = [] := by
  match found with
  | none => simp [unscratched]
  | some .dir => exact absurd rfl notDir
  | some (.file []) => simp [unscratched]
  | some (.file (_ :: _)) => simp [unscratched]

theorem SameStore.refl (t : FileTree) : SameStore t t := ⟨rfl, fun _ _ => rfl, rfl⟩

theorem SameStore.dirs (same : SameStore t t') : SameDirs t t' := by
  refine ⟨same.cwd, fun q => ?_⟩
  by_cases temp : q = tempPath t
  · rw [temp, ← unscratched_dir, same.temp, unscratched_dir]
  · rw [same.nodes q temp]

theorem sameStore_of_changesOnly (only : ChangesOnly p t t') :
    SameStore t t' ↔ t'.node p = t.node p ∨
      p = tempPath t ∧ unscratched (t'.node p) = unscratched (t.node p) := by
  constructor
  · intro same
    by_cases temp : p = tempPath t
    · subst temp
      exact Or.inr ⟨rfl, same.temp⟩
    · exact Or.inl (same.nodes p temp)
  · rintro (unchanged | ⟨rfl, scratch⟩)
    · have all : ∀ q, t'.node q = t.node q := by
        intro q
        by_cases here : q = p
        · rw [here, unchanged]
        · exact only.others q here
      exact ⟨only.cwd, fun q _ => all q, by rw [all]⟩
    · exact ⟨only.cwd, only.others, scratch⟩

theorem sameDirs_withTemp (t : FileTree) : SameDirs t (withTemp t) := by
  cases created : t.openWrite tempTxt with
  | none =>
      rw [withTemp_of_none created]
      exact SameDirs.refl t
  | some opened =>
      obtain ⟨p, t'⟩ := opened
      rw [withTemp_of_some created]
      obtain ⟨free, empty, only⟩ := openWrite_some created
      refine ⟨only.cwd, fun q => ?_⟩
      by_cases here : q = p
      · rw [here, empty]
        exact iff_of_false (by simp) (creatable_some free).2.1
      · rw [only.others q here]

theorem sameStore_withTemp (t : FileTree) : SameStore t (withTemp t) ↔ TempClear t := by
  cases created : t.openWrite tempTxt with
  | none =>
      rw [withTemp_of_none created]
      exact iff_of_true (SameStore.refl t) (Or.inl created)
  | some opened =>
      obtain ⟨p, t'⟩ := opened
      rw [withTemp_of_some created]
      obtain ⟨free, empty, only⟩ := openWrite_some created
      obtain ⟨resolved, notDir, _⟩ := creatable_some free
      rw [tempTxt_eq] at resolved
      have here := openWrite_temp (rooted_of_resolve resolved) created
      subst here
      rw [sameStore_of_changesOnly only, TempClear, created, empty, ← unscratched_clear notDir]
      simp only [reduceCtorEq, false_or, true_and, show unscratched (some (.file [])) = none from rfl]
      constructor
      · rintro (same | scratch)
        · rw [← same]
          rfl
        · exact scratch.symm
      · exact fun clear => Or.inr clear.symm

end Store

/-! ## One lemma for each operation -/

section Operations
variable {s s' : Sys} {username res : Bytes}

theorem sameStore_register (calm : s.faults = [])
    (ran : (registerServ username).run s = .ok res s') :
    SameStore s.tree s'.tree ↔ Harmless s.tree (.register username) := by
  rw [run_registerServ calm] at ran
  split at ran
  · rename_i sized
    cases ran
    exact iff_of_true (SameStore.refl _) (by rcases sized with empty | long <;> simp [Harmless, *])
  · rename_i sized
    split at ran
    · rename_i there
      cases ran
      exact iff_of_true (SameStore.refl _) (Or.inr (Or.inr (Or.inl there)))
    · rename_i absent
      cases made : s.tree.mkdir (folderOf username) with
      | none =>
          rw [made] at ran
          cases ran
          exact iff_of_true (SameStore.refl _) (Or.inr (Or.inr (Or.inr made)))
      | some tree =>
          rw [made] at ran
          cases ran
          obtain ⟨p, _, free, created, only⟩ := mkdir_some made
          refine iff_of_false ?_ ?_
          · rw [sameStore_of_changesOnly only, free, created]
            rintro (same | ⟨_, same⟩) <;> cases same
          · rintro (empty | long | there | failed)
            · exact sized (Or.inl empty)
            · exact sized (Or.inr long)
            · exact absent there
            · rw [made] at failed
              cases failed

theorem not_sameStore_append {t tree : FileTree} {text entry : Bytes} (some_text : entry ≠ [])
    (now : tree.node (tablePath t) = some (.file text))
    (before : table t = some text ∨ table t = none ∧ text = []) :
    ¬ SameStore t (tree.append (tablePath t) entry) := by
  intro same
  have written := same.nodes _ (tempPath_ne_tablePath t).symm
  rw [node_append now entry] at written
  have read := table_eq_some.mpr written.symm
  rcases before with here | ⟨absent, _⟩
  · rw [here, Option.some.injEq, List.self_eq_append_right] at read
    exact some_text read
  · rw [absent] at read
    cases read

theorem sameStore_connect (calm : s.faults = []) {freePort freeServer : Bytes}
    (holds : HoldsOn s (.connect username freePort freeServer)) :
    SameStore s.tree (stopped ((connectServ username freePort freeServer).run s)).tree ↔
      Harmless s.tree (.connect username freePort freeServer) := by
  rw [run_connectServ calm, if_neg (not_le.mpr holds.1)]
  cases there : s.tree.access (folderOf username) with
  | false => exact iff_of_true (SameStore.refl _) (Or.inl there)
  | true =>
      rw [if_neg (by decide)]
      cases opened : s.tree.openAppend conectadosTxt with
      | none => exact iff_of_true (SameStore.refl _) (Or.inr (Or.inl opened))
      | some file =>
          obtain ⟨p, text, tree⟩ := file
          obtain ⟨_, rfl, now, only, before⟩ := openAppend_table opened
          have spelled : Harmless s.tree (.connect username freePort freeServer) ↔
              ∃ text, table s.tree = some text ∧ scanWords 256 username (words text) = some true := by
            rw [Harmless, there, opened]
            simp
          have fits := scanWords_ne_none.mpr
            (holds.2 there (by rw [Sys.fails, calm]; rfl) _ opened)
          rw [spelled]
          simp only at fits ⊢
          cases scanned : scanWords 256 username (words text) with
          | none => exact absurd scanned fits
          | some found =>
              cases found with
              | true =>
                  rcases before with here | ⟨_, rfl⟩
                  · refine iff_of_true ((sameStore_of_changesOnly only).mpr (Or.inl ?_))
                      ⟨text, here, scanned⟩
                    rw [now, table_eq_some.mp here]
                  · cases scanned
              | false =>
                  refine iff_of_false (not_sameStore_append ?_ now before) ?_
                  · simp [tableEntry, show ascii " \n" ≠ [] by decide]
                  · rintro ⟨text', here, found⟩
                    rcases before with before | ⟨absent, _⟩
                    · rw [before] at here
                      cases here
                      rw [scanned] at found
                      cases found
                    · rw [absent] at here
                      cases here

theorem sameStore_publish (calm : s.faults = []) {fileName description : Bytes}
    (ran : (publishServ username fileName description).run s = .ok res s') :
    SameStore s.tree s'.tree ↔ Harmless s.tree (.publish username fileName description) := by
  rw [run_publishServ calm] at ran
  split at ran
  · cases ran
  split at ran
  · rename_i absent
    cases ran
    exact iff_of_true (SameStore.refl _) (Or.inl (by simpa using absent))
  rename_i there
  split at ran
  · rename_i published
    cases ran
    exact iff_of_true (SameStore.refl _) (Or.inr (Or.inl published))
  rename_i fresh
  cases opened : s.tree.openRead conectadosTxt with
  | none =>
      rw [opened] at ran
      cases ran
      exact iff_of_true (SameStore.refl _) (Or.inr (Or.inr (Or.inl opened)))
  | some file =>
      simp only [opened] at ran
      cases scanned : scanWords 100 username (words file.2) with
      | none => rw [scanned] at ran; cases ran
      | some found =>
          simp only [scanned] at ran
          split at ran
          · rename_i missing
            cases ran
            exact iff_of_true (SameStore.refl _) (Or.inr (Or.inr (Or.inr (Or.inl missing))))
          rename_i named
          cases created : s.tree.openWrite (fileOf (folderOf username) fileName) with
          | none =>
              rw [created] at ran
              cases ran
              exact iff_of_true (SameStore.refl _) (Or.inr (Or.inr (Or.inr (Or.inr created))))
          | some target =>
              obtain ⟨p, tree⟩ := target
              simp only [created] at ran
              cases ran
              obtain ⟨free, now, only⟩ := openWrite_some created
              have publication : Published username fileName description s.tree
                  (tree.append p (description ++ [newline])) :=
                ⟨by simpa using there, by simpa using fresh, by rw [opened]; simp, p, tree,
                  created, rfl⟩
              obtain ⟨q, resolved, absent, written, whole⟩ := published_node publication
              rw [(creatable_some free).1, Option.some.injEq] at resolved
              subst resolved
              rw [sameStore_of_changesOnly whole, absent, written]
              refine iff_of_false ?_ ?_
              · rintro (same | ⟨_, scratch⟩)
                · cases same
                · rcases unscratched_none.mp scratch with gone | empty
                  · cases gone
                  · simp at empty
              · rintro (gone | published | closed | missing | refused)
                · rw [gone] at there
                  exact absurd rfl there
                · exact absurd published fresh
                · rw [opened] at closed
                  cases closed
                · exact absurd missing named
                · rw [created] at refused
                  cases refused

theorem sameStore_delete (calm : s.faults = []) {fileName : Bytes}
    (ran : (deleteServ username fileName).run s = .ok res s') :
    SameStore s.tree s'.tree ↔ Harmless s.tree (.delete username fileName) := by
  rw [run_deleteServ calm] at ran
  split at ran
  · rename_i sized
    cases ran
    refine iff_of_true (SameStore.refl _) ?_
    rcases sized with empty | long
    · exact Or.inl empty
    · exact Or.inr (Or.inl long)
  rename_i sized
  split at ran
  · cases ran
  split at ran
  · rename_i absent
    cases ran
    exact iff_of_true (SameStore.refl _) (Or.inr (Or.inr (Or.inl (by simpa using absent))))
  rename_i there
  cases opened : s.tree.openRead conectadosTxt with
  | none =>
      rw [opened] at ran
      cases ran
      exact iff_of_true (SameStore.refl _) (Or.inr (Or.inr (Or.inr (Or.inl opened))))
  | some file =>
      simp only [opened] at ran
      split at ran
      · cases ran
      cases removed : s.tree.remove (fileOf (folderOf username) fileName) with
      | none =>
          rw [removed] at ran
          cases ran
          exact iff_of_true (SameStore.refl _)
            (Or.inr (Or.inr (Or.inr (Or.inr (Or.inl removed)))))
      | some tree =>
          rw [removed] at ran
          cases ran
          obtain ⟨p, n, found, _, gone, only⟩ := remove_some removed
          rw [sameStore_of_changesOnly only, gone, (find_node found).2]
          constructor
          · rintro (same | ⟨temp, scratch⟩)
            · cases same
            · rcases unscratched_none.mp scratch.symm with absent | empty
              · cases absent
              · rw [Option.some.inj empty] at found
                exact Or.inr (Or.inr (Or.inr (Or.inr (Or.inr (temp ▸ found)))))
          · rintro (empty | long | absent | closed | failed | temp)
            · exact absurd (Or.inl empty) sized
            · exact absurd (Or.inr long) sized
            · rw [absent] at there
              exact absurd rfl there
            · rw [opened] at closed
              cases closed
            · rw [removed] at failed
              cases failed
            · rw [found, Option.some.injEq, Prod.mk.injEq] at temp
              obtain ⟨here, rfl⟩ := temp
              exact Or.inr ⟨here, rfl⟩

theorem sameStore_swapped {t t' : FileTree} {text : Bytes} (swapped : Swapped username text t t')
    (here : table t = some text) (tempFree : t.node (tempPath t) ≠ some .dir) :
    SameStore t t' ↔ (∀ content, t.node (tempPath t) = some (.file content) → content = []) ∧
      kept username text = text := by
  rw [← unscratched_clear tempFree]
  constructor
  · intro same
    have tableSame := same.nodes _ (tempPath_ne_tablePath t).symm
    have tempSame := same.temp
    rw [swapped.tableKept] at tableSame
    rw [swapped.tempGone] at tempSame
    exact ⟨tempSame.symm, Option.some.inj ((table_eq_some.mpr tableSame.symm).symm.trans here)⟩
  · rintro ⟨clear, unchanged⟩
    refine ⟨swapped.cwd, fun q notTemp => ?_, ?_⟩
    · by_cases onTable : q = tablePath t
      · rw [onTable, swapped.tableKept, unchanged, table_eq_some.mp here]
      · exact swapped.others q onTable notTemp
    · rw [swapped.tempGone, clear]
      rfl

theorem sameStore_disconnect (calm : s.faults = []) (short : username.length < 244) :
    SameStore s.tree (stopped ((disconnectServ username).run s)).tree ↔
      Harmless s.tree (.disconnect username) := by
  -- where the table is not rewritten, only temp.txt is touched
  have scratch : (stopped ((disconnectServ username).run s)).tree = withTemp s.tree →
      ((withTemp s.tree).access (folderOf username) = false ∨ s.tree.openWrite tempTxt = none ∨
        ∀ text, table s.tree = some text → kept username text = text) →
      (SameStore s.tree (stopped ((disconnectServ username).run s)).tree ↔
        Harmless s.tree (.disconnect username)) := by
    intro left spared
    rw [left, sameStore_withTemp]
    exact (and_iff_left spared).symm
  cases there : (withTemp s.tree).access (folderOf username) with
  | false =>
      refine scratch ?_ (Or.inl there)
      obtain ⟨fails, returns⟩ := run_disconnectServ_absent calm short there
      cases update : s.tree.openUpdate conectadosTxt with
      | none =>
          obtain ⟨_, failed⟩ := fails update
          rw [failed]
          rfl
      | some opened =>
          obtain ⟨_, returned⟩ := returns opened update
          rw [returned]
          rfl
  | true =>
      have rooted := (rooted_congr (sameDirs_withTemp s.tree)).mp (rooted_of_access there)
      cases update : s.tree.openUpdate conectadosTxt with
      | none =>
          obtain ⟨_, returned⟩ := run_disconnectServ_noTable calm short there update
          refine scratch (by rw [returned]; rfl) (Or.inr (Or.inr fun text here => ?_))
          rw [openUpdate_table.mpr ⟨rooted, rfl, here⟩] at update
          cases update
      | some opened =>
          obtain ⟨p, text⟩ := opened
          obtain ⟨_, _, here⟩ := openUpdate_table.mp update
          cases created : s.tree.openWrite tempTxt with
          | none =>
              refine scratch ?_ (Or.inr (Or.inl created))
              rw [withTemp_of_none created] at there ⊢
              obtain ⟨_, failed⟩ := run_disconnectServ_noTemp calm short there update created
              rw [failed]
              rfl
          | some temp =>
              obtain ⟨t', handles, returned, swapped⟩ :=
                run_disconnectServ calm short there update created
              have spelled : Harmless s.tree (.disconnect username) ↔
                  (∀ content, s.tree.node (tempPath s.tree) = some (.file content) → content = []) ∧
                    kept username text = text := by
                rw [Harmless, TempClear, there, created, here]
                simp
              rw [returned, spelled]
              have tempFree := (creatable_some (openWrite_some created).1).2.1
              rw [openWrite_temp rooted created] at tempFree
              exact sameStore_swapped swapped here tempFree

theorem resolve_ne_nil {t : FileTree} {rest : Bytes} {p : Path}
    (resolved : t.resolve (folderOf rest) = some p)
    (named : (components (folderOf rest)).getLast? ≠ some dot ∧
      (components (folderOf rest)).getLast? ≠ some dotdot) : p ≠ [] := by
  have shape : (components (folderOf rest)) ≠ [] := by
    rw [components_folderOf]
    simp
  obtain ⟨init, last, ends⟩ := (List.eq_nil_or_concat _).resolve_left shape
  rw [List.concat_eq_append] at ends
  rw [ends, List.getLast?_concat] at named
  have notDot : last ≠ dot := fun same => named.1 (congrArg some same)
  have notDotdot : last ≠ dotdot := fun same => named.2 (congrArg some same)
  rw [FileTree.resolve, if_neg (folderOf_ne_nil rest), ends, walk_append] at resolved
  obtain ⟨parent, _, step⟩ := Option.bind_eq_some_iff.mp resolved
  simp only [walk, enter, if_neg notDot, if_neg notDotdot] at step
  split at step
  · rw [← Option.some.inj step]
    simp
  · cases step

/-- After the files of a directory are gone, `rmdir` takes it unless a directory
is left in it. -/
theorem rmdir_emptied {t t' : FileTree} {p : Path}
    (found : t.find (folderOf username) = some (p, .dir)) (emptied : Emptied p t t') :
    t'.rmdir (folderOf username) = none ↔
      (∃ name, t.node (p ++ [name]) = some .dir) ∨
        (components (folderOf username)).getLast? = some dot ∨
        (components (folderOf username)).getLast? = some dotdot := by
  obtain ⟨resolved, here⟩ := find_node found
  have found' : t'.find (folderOf username) = some (p, .dir) := by
    rw [FileTree.find, emptied.dirs.resolve, resolved, Option.bind_some,
      (emptied.dirs.dirs p).mpr here]
    simp
  rw [FileTree.rmdir, found']
  simp only [ite_eq_right_iff, reduceCtorEq, imp_false, not_and]
  constructor
  · intro stays
    by_contra goes
    push Not at goes
    obtain ⟨noDir, notDot, notDotdot⟩ := goes
    refine stays notDot notDotdot ⟨resolve_ne_nil resolved ⟨notDot, notDotdot⟩, ?_⟩
    rw [List.eq_nil_iff_forall_not_mem]
    rintro ⟨name, n⟩ listed
    rw [mem_entries] at listed
    cases n with
    | dir => exact noDir name ((emptied.dirs.dirs _).mp listed)
    | file content =>
        by_cases file : ∃ old, t.node (p ++ [name]) = some (.file old)
        · obtain ⟨old, file⟩ := file
          rw [emptied.gone name old file] at listed
          cases listed
        · have same := emptied.others (p ++ [name]) fun name' content' path file' =>
            file ⟨content', file'⟩
          rw [same] at listed
          exact file ⟨content, listed⟩
  · rintro (⟨name, dir⟩ | isDot | isDotdot) notDot notDotdot ⟨_, empty⟩
    · have listed := mem_entries.mpr ((emptied.dirs.dirs (p ++ [name])).mpr dir)
      rw [empty] at listed
      cases listed
    · exact notDot isDot
    · exact notDotdot isDotdot

theorem sameStore_emptied {t t' : FileTree} {p : Path} (emptied : Emptied p t t') :
    SameStore t t' ↔ ∀ name content, t.node (p ++ [name]) = some (.file content) →
      p ++ [name] = tempPath t ∧ content = [] := by
  constructor
  · intro same name content file
    have onTemp : p ++ [name] = tempPath t := by
      by_contra notTemp
      have stays := same.nodes _ notTemp
      rw [emptied.gone name content file, file] at stays
      cases stays
    refine ⟨onTemp, ?_⟩
    have scratch := same.temp
    rw [← onTemp, emptied.gone name content file, file] at scratch
    rcases unscratched_none.mp scratch.symm with absent | empty
    · cases absent
    · exact Node.file.inj (Option.some.inj empty)
  · intro only_temp
    have others : ∀ q, q ≠ tempPath t → t'.node q = t.node q := by
      intro q notTemp
      apply emptied.others
      rintro name content rfl file
      exact notTemp (only_temp name content file).1
    refine ⟨emptied.dirs.cwd, others, ?_⟩
    by_cases inside : ∃ name content, tempPath t = p ++ [name] ∧ t.node (tempPath t) = some (.file content)
    · obtain ⟨name, content, path, file⟩ := inside
      rw [path] at file ⊢
      rw [emptied.gone name content file, file, (only_temp name content file).2]
      rfl
    · rw [emptied.others _ fun name content path file => inside ⟨name, content, path, file⟩]

theorem sameStore_unregister (calm : s.faults = [])
    (ran : (unregisterServ username).run s = .ok res s') :
    SameStore s.tree s'.tree ↔ Harmless s.tree (.unregister username) := by
  by_cases long : 244 ≤ username.length
  · rw [run_unregisterServ_long s long] at ran
    cases ran
  have short := not_le.mp long
  by_cases folder : ∃ p, s.tree.find (folderOf username) = some (p, .dir)
  · obtain ⟨p, found⟩ := folder
    by_cases fits : ∀ name content, s.tree.node (p ++ [name]) = some (.file content) →
        13 + username.length + name.length < 1024
    · obtain ⟨t', emptied, handles, returned⟩ := run_unregisterServ calm short found fits
      have spelled : Harmless s.tree (.unregister username) ↔
          SameStore s.tree t' ∧ t'.rmdir (folderOf username) = none := by
        rw [sameStore_emptied emptied, rmdir_emptied found emptied]
        refine ⟨fun harmless => harmless p found, fun here q found' => ?_⟩
        rw [found] at found'
        cases found'
        exact here
      rw [returned] at ran
      rw [spelled]
      cases removed : t'.rmdir (folderOf username) with
      | none =>
          rw [removed] at ran
          cases ran
          exact (and_iff_left rfl).symm
      | some tree =>
          rw [removed] at ran
          cases ran
          refine iff_of_false (fun same => ?_) (fun both => by cases both.2)
          -- the folder itself is gone
          obtain ⟨q, found', _, gone, _⟩ := rmdir_some removed
          have resolved := (find_node found').1
          rw [emptied.dirs.resolve, (find_node found).1, Option.some.injEq] at resolved
          have stays := (same.dirs.dirs p).mpr (find_node found).2
          rw [resolved, gone] at stays
          cases stays
    · push Not at fits
      obtain ⟨_, failed⟩ := run_unregisterServ_overflow calm short found fits
      rw [failed] at ran
      cases ran
  · have absent : s.tree.opendir (folderOf username) = none := by
      rw [FileTree.opendir]
      split
      · rename_i p found
        exact absurd ⟨p, found⟩ folder
      · rfl
    rw [run_unregisterServ_absent calm short absent] at ran
    cases ran
    exact iff_of_true (SameStore.refl _) fun p found => absurd ⟨p, found⟩ folder

theorem sameStore_iff_harmless (calm : s.faults = []) {request : Request}
    (holds : HoldsOn s request) :
    SameStore s.tree (stopped ((serve request).run s)).tree ↔ Harmless s.tree request := by
  cases request with
  | register username =>
      obtain ⟨reply, s', ran⟩ := serve_returns holds trivial
      rw [ran]
      exact sameStore_register calm (answer_ok ran)
  | unregister username =>
      obtain ⟨reply, s', ran⟩ := serve_returns holds trivial
      rw [ran]
      exact sameStore_unregister calm (answer_ok ran)
  | connect username freePort freeServer =>
      rw [serve, stopped_answer]
      exact sameStore_connect calm holds
  | disconnect username =>
      rw [serve, stopped_answer]
      exact sameStore_disconnect calm holds
  | publish username fileName description =>
      obtain ⟨reply, s', ran⟩ := serve_returns holds trivial
      rw [ran]
      exact sameStore_publish calm (answer_ok ran)
  | delete username fileName =>
      obtain ⟨reply, s', ran⟩ := serve_returns holds trivial
      rw [ran]
      exact sameStore_delete calm (answer_ok ran)
  | listUsers username =>
      obtain ⟨reply, s', ran⟩ := serve_returns holds trivial
      obtain ⟨listed, s₁, first, finished⟩ := bind_ok.mp ran
      obtain ⟨-, rfl⟩ := pure_ok.mp finished
      rw [ran, stopped, listUsersServ_ok first]
      exact iff_of_true (SameStore.refl _) trivial
  | listContent username usernameFolder =>
      obtain ⟨reply, s', ran⟩ := serve_returns holds trivial
      obtain ⟨listed, s₁, first, finished⟩ := bind_ok.mp ran
      obtain ⟨-, rfl⟩ := pure_ok.mp finished
      rw [ran, stopped, listContentServ_ok first]
      exact iff_of_true (SameStore.refl _) trivial

end Operations

/-! ## Cut requests -/

theorem take_field {campo : Bytes} (plain : (0 : UInt8) ∉ campo ∧ newline ∉ campo) (rest : Bytes)
    (n : Nat) :
    beforeEnd ((campo ++ 0 :: rest).take n) = campo.take n ∧
      afterEnd ((campo ++ 0 :: rest).take n) = rest.take (n - (campo.length + 1)) := by
  by_cases whole : campo.length < n
  · obtain ⟨m, rfl⟩ := Nat.exists_eq_add_of_le whole
    have cut : (campo ++ 0 :: rest).take (campo.length + 1 + m) = campo ++ 0 :: rest.take m := by
      rw [Nat.add_assoc, List.take_length_add_append, Nat.add_comm 1 m, List.take_succ_cons]
    obtain ⟨first, tail⟩ := beforeEnd_field plain (rest.take m)
    rw [cut, first, tail, List.take_of_length_le (by omega), Nat.add_sub_cancel_left]
    exact ⟨rfl, rfl⟩
  · have cut : (campo ++ 0 :: rest).take n = campo.take n :=
      List.take_append_of_le_length (not_lt.mp whole)
    obtain ⟨first, tail⟩ := @beforeEnd_cut (campo.take n)
      ⟨fun member => plain.1 (List.mem_of_mem_take member),
        fun member => plain.2 (List.mem_of_mem_take member)⟩
    rw [cut, first, tail, Nat.sub_eq_zero_of_le (by omega)]
    exact ⟨rfl, rfl⟩

theorem operacionOf_take (op : Operacion) {n : Nat} (cut : n < op.name.length) :
    operacionOf (op.name.take n) = none := by
  have all : ∀ op : Operacion, ∀ n < op.name.length, operacionOf (op.name.take n) = none := by
    intro op
    cases op <;> decide
  exact all op n cut

theorem received_cut (op : Operacion) (campos : List Bytes) (n : Nat) :
    received ((wire (op.name :: campos)).take n) =
      if n < op.name.length then none
      else some (op.request (lineas op.attrs ((wire campos).take (n - (op.name.length + 1))))) := by
  have shape : wire (op.name :: campos) = op.name ++ 0 :: wire campos := by
    simp [wire]
  obtain ⟨first, tail⟩ := take_field (plain_name op).1 (wire campos) n
  rw [received, shape, first, tail]
  split
  · rename_i cut
    rw [operacionOf_take op cut]
    rfl
  · rename_i whole
    rw [List.take_of_length_le (not_lt.mp whole), operacionOf_name, Option.map_some]

/-- After the first `n` bytes of a request and the end of the stream, the store is
as it was if and only if the handler stays inside its arrays, and not the whole
name has arrived or the fields that have arrived leave nothing to do. -/
theorem cut_unchanged_iff {s : Sys} (calm : s.faults = []) (op : Operacion) (campos : List Bytes)
    (n : Nat) : CutUnchanged s ((wire (op.name :: campos)).take n) ↔
      Contained s ((wire (op.name :: campos)).take n) ∧
        (n < op.name.length ∨ Harmless s.tree
          (op.request (lineas op.attrs ((wire campos).take (n - (op.name.length + 1)))))) := by
  have decoded := received_cut op campos n
  constructor
  · intro unchanged
    have contained : Contained s ((wire (op.name :: campos)).take n) := by
      by_contra big
      obtain ⟨env, e, c, ran, escapes⟩ := escapes_of_not_contained big
      exact (unchanged env _ [] (delivers_reads _)).1 e c ran escapes
    refine ⟨contained, or_iff_not_imp_left.mpr fun whole => ?_⟩
    rw [if_neg whole] at decoded
    obtain ⟨op', named, request⟩ := Option.map_eq_some_iff.mp decoded
    obtain ⟨holds, -⟩ := contained.2 op' named
    rw [← request, ← sameStore_iff_harmless calm holds]
    have same := (unchanged answering _ [] (delivers_reads _)).2
    rwa [handled_received contained.1 named] at same
  · rintro ⟨contained, spared⟩ env input writes delivers
    have arrives := arrived_of_delivers delivers
    refine ⟨fun e c => staysInside_of_contained contained env input writes e c arrives, ?_⟩
    rcases handled_tree env s input writes with untouched | ⟨request, here, left⟩
    · rw [untouched]
      exact SameStore.refl s.tree
    · rw [arrives] at here
      rcases spared with cut | harmless
      · rw [decoded, if_pos cut] at here
        cases here
      · obtain ⟨op', named, same⟩ := Option.map_eq_some_iff.mp here
        obtain ⟨holds, -⟩ := contained.2 op' named
        rw [same] at holds
        rw [left, sameStore_iff_harmless calm holds]
        rw [decoded] at here
        split at here
        · cases here
        · exact Option.some.inj here ▸ harmless

def bobCut : Bytes :=
  (wire (Operacion.connect.name :: [ascii "bob", ascii "4009", ascii "10.0.0.9", ascii "now"])).take 14

theorem operacionOf_bobCut {op : Operacion} (named : operacionOf (beforeEnd bobCut) = some op) :
    op = .connect := by
  rw [show operacionOf (beforeEnd bobCut) = some .connect by decide +kernel] at named
  exact (Option.some.inj named).symm

theorem cut_unchanged_connect :
    CutUnchanged ⟨treeAfter firstStart anaAndBobPublished, [], []⟩ bobCut := by
  have connected : (table (treeAfter firstStart anaAndBobPublished)).map
      (fun text => scanWords 256 (ascii "bob") (words text)) = some (some true) := by decide +kernel
  have scanned : ((treeAfter firstStart anaAndBobPublished).openAppend conectadosTxt).map
      (fun opened => scanWords 256 (ascii "bob") (words opened.2.1)) = some (some true) := by
    decide +kernel
  obtain ⟨text, here, known⟩ := Option.map_eq_some_iff.mp connected
  refine (cut_unchanged_iff rfl .connect _ 14).mpr
    ⟨⟨⟨by decide, fun op named => ?_⟩, fun op named => ?_⟩,
      Or.inr (Or.inr (Or.inr ⟨text, here, known⟩))⟩
  · obtain rfl := operacionOf_bobCut named
    decide +kernel
  · obtain rfl := operacionOf_bobCut named
    refine ⟨⟨by decide +kernel, fun _ _ opened appended => scanWords_ne_none.mp ?_⟩, trivial,
      by simp [acksOn, Operacion.request, lineas], trivial⟩
    rw [appended, Option.map_some, Option.some.injEq] at scanned
    exact fun never => absurd (never.symm.trans scanned) (by decide)

/-- The client's PUBLISH without a connected user publishes a file all the same. -/
theorem publish_without_user :
    ¬ ∀ (s : Sys) (op : Operacion) (campos : List Bytes) (n : Nat),
      campos.length = op.attrs + 1 → n < (wire (op.name :: campos)).length →
      CutUnchanged s ((wire (op.name :: campos)).take n) := by
  intro unchanged
  have sent : Delivers (reads (Client.publish ⟨none, false⟩ true "file1" "first" "10:00" []).flatten)
      ((wire (Operacion.publish.name ::
        [ascii "ana", ascii "file1", ascii "first", ascii "10:00"])).take 8) :=
    ⟨by decide, by decide⟩
  have same := (unchanged ⟨firstStart, [], []⟩ .publish _ 8 rfl (by decide) answering _ [] sent).2
  have stays := same.nodes (usuarios firstStart ++ [ascii ".txt"]) (by decide)
  have created : (handled answering (Conn.accepted ⟨firstStart, [], []⟩ (reads
      (Client.publish ⟨none, false⟩ true "file1" "first" "10:00" []).flatten) [])).sys.tree.node
        (usuarios firstStart ++ [ascii ".txt"]) = some (.file [newline]) := by
    decide +kernel
  rw [created] at stays
  revert stays
  decide

end DistrApp.Server
