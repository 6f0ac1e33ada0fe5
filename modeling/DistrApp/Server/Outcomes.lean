import DistrApp.Server.Specs

/-!
# What an operation can have done when it returns

Whatever calls failed on the way: for each call and each operation, the ways
the tree can look after it, with the replies that go with them.
-/

set_option autoImplicit false

namespace DistrApp.Server

open Text FileTree Effects

section Calls
variable {β : Type} {s s' : Sys}

theorem sprintf_then {size : Nat} {text : Bytes} {next : Bytes → Op β} {b : β}
    (ran : (sprintf size text >>= next).run s = .ok b s') : (next text).run s = .ok b s' := by
  rw [run_sprintf] at ran
  split at ran
  · exact ran
  · cases ran

theorem access_then {path : Bytes} {next : Bool → Op β} {b : β}
    (ran : (access path >>= next).run s = .ok b s') :
    (next (s.tree.access path)).run s = .ok b s' := ran

theorem nextFault_ok {fault : Bool} (ran : nextFault.run s = .ok fault s') :
    s'.tree = s.tree := by
  simp only [nextFault, EStateM.run] at ran
  split at ran <;> cases ran <;> rfl

theorem change_ok {attempt : FileTree → Option FileTree} {done : Bool}
    (ran : (change attempt).run s = .ok done s') :
    done = false ∧ s'.tree = s.tree ∨ done = true ∧ attempt s.tree = some s'.tree := by
  simp only [change, bind_ok] at ran
  obtain ⟨fault, middle, drawn, ran⟩ := ran
  have same := nextFault_ok drawn
  cases fault with
  | true => cases ran; exact Or.inl ⟨rfl, same⟩
  | false =>
      obtain ⟨_, _, got, ran⟩ := bind_ok.mp ran
      cases got
      rw [← same]
      cases changed : attempt middle.tree with
      | none => rw [changed] at ran; cases ran; exact Or.inl ⟨rfl, rfl⟩
      | some tree => rw [changed] at ran; cases ran; exact Or.inr ⟨rfl, rfl⟩

theorem fopen_ok {path : Bytes} {mode : Mode} {stream : Option Stream}
    (ran : (fopen path mode).run s = .ok stream s') :
    stream = none ∧ s'.tree = s.tree ∨
      ∃ f, stream = some f ∧ openFile s.tree path mode = some (f.path, f.text, s'.tree) := by
  simp only [fopen, bind_ok] at ran
  obtain ⟨fault, middle, drawn, ran⟩ := ran
  have same := nextFault_ok drawn
  cases fault with
  | true => cases ran; exact Or.inl ⟨rfl, same⟩
  | false =>
      obtain ⟨_, _, got, ran⟩ := bind_ok.mp ran
      cases got
      rw [← same]
      cases opened : openFile middle.tree path mode with
      | none => rw [opened] at ran; cases ran; exact Or.inl ⟨rfl, rfl⟩
      | some file =>
          obtain ⟨file, text, tree⟩ := file
          rw [opened] at ran
          cases ran
          exact Or.inr ⟨_, rfl, rfl⟩

theorem opendir_ok {path : Bytes} {dir : Option Dir}
    (ran : (opendir path).run s = .ok dir s') :
    s'.tree = s.tree ∧ (dir = none ∨ ∃ d, dir = some d ∧ s.tree.opendir path = some d.entries) := by
  simp only [opendir, bind_ok] at ran
  obtain ⟨fault, middle, drawn, ran⟩ := ran
  have same := nextFault_ok drawn
  cases fault with
  | true => cases ran; exact ⟨same, Or.inl rfl⟩
  | false =>
      obtain ⟨_, _, got, ran⟩ := bind_ok.mp ran
      cases got
      rw [← same]
      cases opened : middle.tree.opendir path with
      | none => rw [opened] at ran; cases ran; exact ⟨rfl, Or.inl rfl⟩
      | some entries => rw [opened] at ran; cases ran; exact ⟨rfl, Or.inr ⟨_, rfl, rfl⟩⟩

/-! A call that works has not been made to fail. -/

theorem fopen_works {path : Bytes} {mode : Mode} {f : Stream}
    (ran : (fopen path mode).run s = .ok (some f) s') :
    s.fails 0 = false ∧ s'.faults = s.faults.drop 1 ∧
      openFile s.tree path mode = some (f.path, f.text, s'.tree) := by
  rw [fopen_run, headD_faults] at ran
  cases fault : s.fails 0 with
  | true =>
      rw [fault] at ran
      cases ran
  | false =>
      rw [fault, if_neg Bool.false_ne_true] at ran
      cases opened : openFile s.tree path mode with
      | none =>
          rw [opened] at ran
          cases ran
      | some file =>
          rw [opened] at ran
          cases ran
          exact ⟨rfl, List.drop_one.symm, rfl⟩

theorem change_works {attempt : FileTree → Option FileTree}
    (ran : (change attempt).run s = .ok true s') :
    s.fails 0 = false ∧ s'.faults = s.faults.drop 1 ∧ attempt s.tree = some s'.tree := by
  rw [change_run, headD_faults] at ran
  cases fault : s.fails 0 with
  | true =>
      rw [fault] at ran
      cases ran
  | false =>
      rw [fault, if_neg Bool.false_ne_true] at ran
      cases attempted : attempt s.tree with
      | none =>
          rw [attempted] at ran
          cases ran
      | some tree =>
          rw [attempted] at ran
          cases ran
          exact ⟨rfl, List.drop_one.symm, rfl⟩

theorem opendir_works {path : Bytes} {d : Dir} (ran : (opendir path).run s = .ok (some d) s') :
    s.fails 0 = false ∧ s'.faults = s.faults.drop 1 ∧ s'.tree = s.tree ∧
      s.tree.opendir path = some d.entries := by
  rw [opendir_run, headD_faults] at ran
  cases fault : s.fails 0 with
  | true =>
      rw [fault] at ran
      cases ran
  | false =>
      rw [fault, if_neg Bool.false_ne_true] at ran
      cases opened : s.tree.opendir path with
      | none =>
          rw [opened] at ran
          cases ran
      | some listed =>
          rw [opened] at ran
          cases ran
          exact ⟨rfl, List.drop_one.symm, rfl, rfl⟩

theorem closedir_ok {dir : Dir} {done : Unit} (ran : (closedir dir).run s = .ok done s') :
    s'.tree = s.tree := by
  cases ran
  rfl

theorem fclose_ok {stream : Option Stream} {done : Unit}
    (ran : (fclose stream).run s = .ok done s') : s'.tree = s.tree ∧ stream ≠ none := by
  cases stream with
  | none => cases ran
  | some f => cases ran; exact ⟨rfl, Option.some_ne_none f⟩

theorem unread_then {stream : Option Stream} {next : Bytes → Op β} {b : β}
    (ran : (unread stream >>= next).run s = .ok b s') :
    ∃ f, stream = some f ∧ (next f.text).run s = .ok b s' := by
  cases stream with
  | none => cases ran
  | some f => exact ⟨f, rfl, ran⟩

theorem fputs_ok {text : Bytes} {stream : Option Stream} {done : Unit}
    (ran : (fputs text stream).run s = .ok done s') :
    ∃ f, stream = some f ∧ s'.tree = s.tree.append f.path text := by
  cases stream with
  | none => cases ran
  | some f => cases ran; exact ⟨f, rfl, rfl⟩

theorem findWord_then {size : Nat} {username : Bytes} {seen : List Bytes} {next : Bool → Op β}
    {b : β} (ran : (findWord size username seen >>= next).run s = .ok b s') :
    ∃ found, scanWords size username seen = some found ∧ (next found).run s = .ok b s' := by
  rw [run_findWord] at ran
  cases scanned : scanWords size username seen with
  | none => rw [scanned] at ran; cases ran
  | some found => rw [scanned] at ran; exact ⟨found, rfl, ran⟩

end Calls

section Operations
variable {s s' : Sys}

theorem registerServ_ok {username reply : Bytes}
    (ran : (registerServ username).run s = .ok reply s') :
    reply ≠ ascii "0" ∧ s'.tree = s.tree ∨
      reply = ascii "0" ∧ s.tree.mkdir (folderOf username) = some s'.tree := by
  unfold registerServ at ran
  split at ran
  · obtain ⟨rfl, rfl⟩ := pure_ok.mp ran
    exact Or.inl ⟨by decide, rfl⟩
  · replace ran := access_then (sprintf_then ran)
    split at ran
    · obtain ⟨rfl, rfl⟩ := pure_ok.mp ran
      exact Or.inl ⟨by decide, rfl⟩
    · obtain ⟨made, _, tried, ran⟩ := bind_ok.mp ran
      rcases change_ok tried with ⟨rfl, same⟩ | ⟨rfl, made⟩
      · obtain ⟨rfl, rfl⟩ := pure_ok.mp ran
        exact Or.inl ⟨by decide, same⟩
      · obtain ⟨rfl, rfl⟩ := pure_ok.mp ran
        exact Or.inr ⟨rfl, made⟩

/-- Some regular files of the directory `p` are gone, nothing else has changed. -/
structure Thinned (p : Path) (t t' : FileTree) : Prop where
  dirs : SameDirs t t'
  others : ∀ q, t'.node q = t.node q ∨
    t'.node q = none ∧ ∃ name content, q = p ++ [name] ∧ t.node q = some (.file content)

theorem Thinned.refl (p : Path) (t : FileTree) : Thinned p t t :=
  ⟨SameDirs.refl t, fun _ => Or.inl rfl⟩

theorem Thinned.trans {p : Path} {t t' t'' : FileTree} (first : Thinned p t t')
    (second : Thinned p t' t'') : Thinned p t t'' := by
  refine ⟨first.dirs.trans second.dirs, fun q => ?_⟩
  rcases second.others q with same | ⟨gone, name, content, shape, here⟩
  · rw [same]
    exact first.others q
  · rcases first.others q with same | ⟨gone', rest⟩
    · exact Or.inr ⟨gone, name, content, shape, same ▸ here⟩
    · exact Or.inr ⟨gone, rest⟩

theorem thinned_erase {t : FileTree} {p : Path} {name : Name} {content : Bytes}
    (here : t.node (p ++ [name]) = some (.file content)) : Thinned p t (t.erase (p ++ [name])) := by
  refine ⟨erase_file_sameDirs here, fun q => ?_⟩
  by_cases same : q = p ++ [name]
  · subst same
    exact Or.inr ⟨node_erase_self (removable_of_file here), name, content, rfl, here⟩
  · exact Or.inl (node_erase_ne t same)

theorem removeFiles_ok {foldername : Bytes} {p : Path} (nonempty : foldername ≠ []) :
    ∀ (listed : List (Name × Node)) (s s' : Sys) (done : Bool),
      s.tree.resolve foldername = some p → (listed.map Prod.fst).Nodup →
      (∀ e ∈ listed, s.tree.node (p ++ [e.1]) = some e.2) →
      (removeFiles foldername listed).run s = .ok done s' → Thinned p s.tree s'.tree := by
  intro listed
  induction listed with
  | nil =>
      intro s s' done _ _ _ ran
      obtain ⟨-, rfl⟩ := pure_ok.mp ran
      exact Thinned.refl p _
  | cons e rest ih =>
      intro s s' done resolved distinct stored ran
      obtain ⟨name, n⟩ := e
      rw [List.map_cons, List.nodup_cons] at distinct
      have here : s.tree.node (p ++ [name]) = some n := stored (name, n) List.mem_cons_self
      have storedRest : ∀ e ∈ rest, s.tree.node (p ++ [e.1]) = some e.2 :=
        fun e member => stored e (List.mem_cons_of_mem _ member)
      cases n with
      | dir => exact ih s s' done resolved distinct.2 storedRest ran
      | file content =>
          replace ran := sprintf_then ran
          obtain ⟨removed, s₁, tried, ran⟩ := bind_ok.mp ran
          rcases change_ok tried with ⟨rfl, same⟩ | ⟨rfl, gone⟩
          · obtain ⟨-, rfl⟩ := pure_ok.mp ran
            rw [same]
            exact Thinned.refl p _
          · rw [remove_child nonempty resolved here, Option.some.injEq] at gone
            have first := thinned_erase here
            rw [gone] at first
            refine first.trans (ih s₁ s' done ?_ distinct.2 ?_ ran)
            · rw [first.dirs.resolve]
              exact resolved
            · intro e member
              rw [← gone, node_erase_ne _ ?_]
              · exact storedRest e member
              · intro same
                have names : e.1 = name := by simpa using same
                exact distinct.1 (List.mem_map.mpr ⟨e, member, names⟩)

theorem unregisterServ_ok {username reply : Bytes}
    (ran : (unregisterServ username).run s = .ok reply s') :
    reply = ascii "1" ∧ s'.tree = s.tree ∨
      ∃ p t₁, s.tree.find (folderOf username) = some (p, .dir) ∧ Thinned p s.tree t₁ ∧
        (reply = ascii "2" ∧ s'.tree = t₁ ∨
          reply = ascii "0" ∧ t₁.rmdir (folderOf username) = some s'.tree) := by
  unfold unregisterServ at ran
  replace ran := access_then (sprintf_then ran)
  split at ran
  · obtain ⟨rfl, rfl⟩ := pure_ok.mp ran
    exact Or.inl ⟨rfl, rfl⟩
  · obtain ⟨dir, s₁, opened, ran⟩ := bind_ok.mp ran
    obtain ⟨same₁, rfl | ⟨dir, rfl, listed⟩⟩ := opendir_ok opened
    · obtain ⟨rfl, rfl⟩ := pure_ok.mp ran
      exact Or.inl ⟨rfl, same₁⟩
    · obtain ⟨p, found, entries⟩ := find_of_opendir listed
      obtain ⟨done, s₂, looped, ran⟩ := bind_ok.mp ran
      rw [← same₁] at found entries
      rw [entries] at looped
      have thinned := removeFiles_ok (folderOf_ne_nil username) _ s₁ s₂ done
        (find_node found).1 (entries_names_nodup _ p) (fun e member => mem_entries.mp member) looped
      rw [same₁] at found thinned
      refine Or.inr ⟨p, s₂.tree, found, thinned, ?_⟩
      split at ran
      · obtain ⟨_, _, closed, ran⟩ := bind_ok.mp ran
        obtain ⟨rfl, rfl⟩ := pure_ok.mp ran
        exact Or.inl ⟨rfl, closedir_ok closed⟩
      · obtain ⟨_, s₃, closed, ran⟩ := bind_ok.mp ran
        obtain ⟨_, _, tried, ran⟩ := bind_ok.mp ran
        rw [← closedir_ok closed]
        rcases change_ok tried with ⟨rfl, same⟩ | ⟨rfl, gone⟩
        · obtain ⟨rfl, rfl⟩ := pure_ok.mp ran
          exact Or.inl ⟨rfl, same⟩
        · obtain ⟨rfl, rfl⟩ := pure_ok.mp ran
          exact Or.inr ⟨rfl, gone⟩

theorem connectServ_ok {username freePort freeServer reply : Bytes}
    (ran : (connectServ username freePort freeServer).run s = .ok reply s') :
    reply = ascii "1" ∧ s'.tree = s.tree ∨
      s.tree.access (folderOf username) = true ∧
        ∃ file text tree, s.tree.openAppend conectadosTxt = some (file, text, tree) ∧
          (reply = ascii "2" ∧ s'.tree = tree ∨
            reply = ascii "0" ∧ scanWords 256 username (words text) = some false ∧
              s'.tree = tree.append file (tableEntry username freeServer freePort)) := by
  unfold connectServ at ran
  replace ran := access_then (sprintf_then ran)
  split at ran
  · obtain ⟨rfl, rfl⟩ := pure_ok.mp ran
    exact Or.inl ⟨rfl, rfl⟩
  · rename_i present
    obtain ⟨conectadosFile, s₁, opened, ran⟩ := bind_ok.mp ran
    obtain ⟨f, rfl, ran⟩ := unread_then ran
    obtain ⟨found, scanned, ran⟩ := findWord_then ran
    rcases fopen_ok opened with ⟨absurdity, _⟩ | ⟨g, same, opened⟩
    · cases absurdity
    · cases same
      refine Or.inr ⟨by simpa using present, f.path, f.text, _, opened, ?_⟩
      cases found with
      | true =>
          obtain ⟨_, _, closed, ran⟩ := bind_ok.mp ran
          obtain ⟨rfl, rfl⟩ := pure_ok.mp ran
          exact Or.inl ⟨rfl, (fclose_ok closed).1⟩
      | false =>
          simp only [Bool.false_eq_true, if_false, Option.isNone_some] at ran
          obtain ⟨_, _, wrote, ran⟩ := bind_ok.mp ran
          obtain ⟨_, _, closed, ran⟩ := bind_ok.mp ran
          obtain ⟨rfl, rfl⟩ := pure_ok.mp ran
          obtain ⟨g, same, tree⟩ := fputs_ok wrote
          cases same
          exact Or.inr ⟨rfl, scanned, by rw [(fclose_ok closed).1, tree]⟩

theorem copyOthers_ok {username : Bytes} {tempFile : Option Stream} :
    ∀ (read : List Bytes) (userFound : Bool) (s s' : Sys) (found : Bool),
      (copyOthers username tempFile userFound read).run s = .ok found s' →
      tempFile = none ∧ s' = s ∨ ∃ temp, tempFile = some temp ∧
        ∀ content, s.tree.node temp.path = some (.file content) →
          found = (userFound || read.any fun line => username <:+: cString line) ∧
          ChangesOnly temp.path s.tree s'.tree ∧
          s'.tree.node temp.path = some (.file (content ++
            ((read.filter fun line => !decide (username <:+: cString line)).map
              cString).flatten)) := by
  intro read userFound s s' found ran
  cases tempFile with
  | none =>
      left
      refine ⟨rfl, ?_⟩
      induction read generalizing userFound with
      | nil => exact (pure_ok.mp ran).2
      | cons line rest ih =>
          by_cases matched : username <:+: cString line
          · simp only [copyOthers, matched, if_true] at ran
            exact ih true ran
          · simp only [copyOthers, matched, if_false, run_fputs_none] at ran
            cases ran
  | some temp =>
      right
      refine ⟨temp, rfl, fun content here => ?_⟩
      obtain ⟨t', ran', only, there⟩ := run_copyOthers username temp read userFound s content here
      rw [ran'] at ran
      cases ran
      exact ⟨rfl, only, there⟩

/-- The tree after `fopen("../usuarios/temp.txt", "w")`, whether or not it worked. -/
def TempTried (t t' : FileTree) : Prop := t' = t ∨ ∃ q, t.openWrite tempTxt = some (q, t')

/-- The loop has run; `remove` and `rename` after it may each have failed. -/
structure SwapTried (username text : Bytes) (t t' : FileTree) : Prop where
  rooted : Rooted t
  before : table t = some text
  cwd : t'.cwd = t.cwd
  tableNow : t'.node (tablePath t) = some (.file text) ∨
    t'.node (tablePath t) = some (.file (kept username text)) ∨ t'.node (tablePath t) = none
  tempBefore : t.node (tempPath t) ≠ some .dir
  tempNow : t'.node (tempPath t) ≠ some .dir
  others : ∀ q, q ≠ tablePath t → q ≠ tempPath t → t'.node q = t.node q

theorem rename_temp {t t' : FileTree} {new : Bytes} (rooted : Rooted t)
    (tempHere : t.node (tempPath t) = some (.file new))
    (renamed : t.rename tempTxt conectadosTxt = some t') :
    t'.cwd = t.cwd ∧ t'.node (tablePath t) = some (.file new) ∧ t'.node (tempPath t) = none ∧
      ∀ q, q ≠ tablePath t → q ≠ tempPath t → t'.node q = t.node q := by
  obtain ⟨p, q, content, found, resolved, _, moved⟩ := rename_some renamed
  rw [tempTxt_eq, find_name rooted valid_temp, ← tempPath, tempHere] at found
  rw [conectadosTxt_eq, resolve_name rooted valid_conectados] at resolved
  split at resolved
  · cases found
    cases resolved
    rcases moved with ⟨same, _⟩ | ⟨_, cwd, tableNow, tempNow, others⟩
    · exact absurd same (tempPath_ne_tablePath t)
    · exact ⟨cwd, tableNow, tempNow, fun r notTable notTemp => others r notTemp notTable⟩
  · contradiction

theorem remove_table {t t' : FileTree} {old : Bytes} (rooted : Rooted t)
    (tableHere : t.node (tablePath t) = some (.file old))
    (removed : t.remove conectadosTxt = some t') :
    t'.node (tablePath t) = none ∧ ChangesOnly (tablePath t) t t' := by
  obtain ⟨p, n, found, _, gone, only⟩ := remove_some removed
  rw [find_table rooted, tableHere] at found
  cases found
  exact ⟨gone, only⟩

/-- The two calls after the copying loop, each of which may fail. -/
theorem swapTried {username text : Bytes} {t t₂ t₃ t₄ : FileTree} (rooted : Rooted t)
    (before : table t = some text) (tempBefore : t.node (tempPath t) ≠ some .dir)
    (only : ChangesOnly (tempPath t) t t₂)
    (copied : t₂.node (tempPath t) = some (.file (kept username text)))
    (removed : t₃ = t₂ ∨ t₂.remove conectadosTxt = some t₃)
    (renamed : t₄ = t₃ ∨ t₃.rename tempTxt conectadosTxt = some t₄) :
    SwapTried username text t t₄ := by
  have apart := tempPath_ne_tablePath t
  have tableHere := table_eq_some.mp before
  have rooted₂ := rooted_of_changesOnly only tempBefore rooted
  have table₂ : t₂.node (tablePath t) = some (.file text) := by
    rw [only.others _ apart.symm, tableHere]
  have cwd₃ : t₃.cwd = t.cwd ∧ Rooted t₃ ∧
      (t₃.node (tablePath t) = some (.file text) ∨ t₃.node (tablePath t) = none) ∧
      ∀ q, q ≠ tablePath t → t₃.node q = t₂.node q := by
    rcases removed with rfl | removed
    · exact ⟨only.cwd, rooted₂, Or.inl table₂, fun _ _ => rfl⟩
    · rw [← tablePath_congr only.cwd] at table₂ ⊢
      obtain ⟨gone, only₃⟩ := remove_table rooted₂ table₂ removed
      exact ⟨only₃.cwd.trans only.cwd, rooted_of_changesOnly only₃ (by rw [table₂]; simp) rooted₂,
        Or.inr gone, only₃.others⟩
  obtain ⟨cwd, rooted₃, table₃, others₃⟩ := cwd₃
  have temp₃ : t₃.node (tempPath t) = some (.file (kept username text)) := by
    rw [others₃ _ apart, copied]
  rcases renamed with rfl | renamed
  · refine ⟨rooted, before, cwd, ?_, tempBefore, by rw [temp₃]; simp, ?_⟩
    · exact table₃.imp_right Or.inr
    · intro q notTable notTemp
      rw [others₃ q notTable, only.others q notTemp]
  · obtain ⟨cwd₄, tableNow, tempNow, others₄⟩ :=
      rename_temp rooted₃ (by rw [tempPath_congr cwd]; exact temp₃) renamed
    rw [tablePath_congr cwd] at tableNow others₄
    rw [tempPath_congr cwd] at tempNow others₄
    refine ⟨rooted, before, cwd₄.trans cwd, Or.inr (Or.inl tableNow), tempBefore,
      by rw [tempNow]; simp, ?_⟩
    intro q notTable notTemp
    rw [others₄ q notTable notTemp, others₃ q notTable, only.others q notTemp]

theorem fopen_temp_ok {tempFile : Option Stream}
    (ran : (fopen tempTxt .write).run s = .ok tempFile s') :
    tempFile = none ∧ s'.tree = s.tree ∨ ∃ f, tempFile = some f ∧ f.text = [] ∧
      s.tree.openWrite tempTxt = some (f.path, s'.tree) := by
  rcases fopen_ok ran with failed | ⟨f, rfl, opened⟩
  · exact Or.inl failed
  · obtain ⟨⟨q, tree⟩, created, shape⟩ := Option.map_eq_some_iff.mp opened
    simp only [Prod.mk.injEq] at shape
    obtain ⟨rfl, text, rfl⟩ := shape
    exact Or.inr ⟨f, rfl, text.symm, created⟩

theorem change_tried {attempt : FileTree → Option FileTree} {done : Bool}
    (ran : (change attempt).run s = .ok done s') :
    s'.tree = s.tree ∨ attempt s.tree = some s'.tree :=
  (change_ok ran).imp And.right And.right

theorem disconnectServ_ok {username reply : Bytes}
    (ran : (disconnectServ username).run s = .ok reply s') :
    (reply = ascii "1" ∨ reply = ascii "3") ∧ TempTried s.tree s'.tree ∨
      ∃ text, reply = (if matchesSome username text then ascii "0" else ascii "2") ∧
        SwapTried username text s.tree s'.tree := by
  unfold disconnectServ at ran
  obtain ⟨conectadosFile, s₁, openedTable, ran⟩ := bind_ok.mp ran
  obtain ⟨tempFile, s₂, openedTemp, ran⟩ := bind_ok.mp ran
  replace ran := access_then (sprintf_then ran)
  have sameTree : s₁.tree = s.tree := by
    rcases fopen_ok openedTable with ⟨_, same⟩ | ⟨f, _, opened⟩
    · exact same
    · obtain ⟨_, _, shape⟩ := Option.map_eq_some_iff.mp opened
      exact (congrArg (fun file => file.2.2) shape).symm
  have tried : TempTried s.tree s₂.tree := by
    rw [← sameTree]
    rcases fopen_temp_ok openedTemp with ⟨_, same⟩ | ⟨f, _, _, created⟩
    · exact Or.inl same
    · exact Or.inr ⟨f.path, created⟩
  split at ran
  · obtain ⟨_, _, closed, ran⟩ := bind_ok.mp ran
    obtain ⟨rfl, rfl⟩ := pure_ok.mp ran
    exact Or.inl ⟨Or.inl rfl, (fclose_ok closed).1 ▸ tried⟩
  · split at ran
    · obtain ⟨rfl, rfl⟩ := pure_ok.mp ran
      exact Or.inl ⟨Or.inr rfl, tried⟩
    · right
      obtain ⟨f, rfl, ran⟩ := unread_then ran
      obtain ⟨found, s₃, looped, ran⟩ := bind_ok.mp ran
      obtain ⟨_, s₄, closed₁, ran⟩ := bind_ok.mp ran
      obtain ⟨_, s₅, closed₂, ran⟩ := bind_ok.mp ran
      obtain ⟨_, s₆, removed, ran⟩ := bind_ok.mp ran
      obtain ⟨_, s₇, renamed, finished⟩ := bind_ok.mp ran
      have trees : s₅.tree = s₃.tree := (fclose_ok closed₂).1.trans (fclose_ok closed₁).1
      obtain ⟨temp, rfl⟩ := Option.ne_none_iff_exists'.mp (fclose_ok closed₂).2
      rcases fopen_temp_ok openedTemp with ⟨absurdity, _⟩ | ⟨g, same, -, created⟩
      · cases absurdity
      cases same
      rcases fopen_ok openedTable with ⟨absurdity, _⟩ | ⟨g, same, opened⟩
      · cases absurdity
      cases same
      obtain ⟨⟨p, text⟩, update, shape⟩ := Option.map_eq_some_iff.mp opened
      simp only [Prod.mk.injEq] at shape
      obtain ⟨-, rfl, -⟩ := shape
      obtain ⟨rooted, -, before⟩ := openUpdate_table.mp update
      rw [sameTree] at created
      have place := openWrite_temp rooted created
      obtain ⟨free, empty, only₁⟩ := openWrite_some created
      rcases copyOthers_ok _ _ _ _ _ looped with ⟨absurdity, _⟩ | ⟨g, same, outcome⟩
      · cases absurdity
      cases same
      obtain ⟨rfl, only₂, copied⟩ := outcome [] empty
      rw [place] at free only₁ only₂ copied
      have removing : s₆.tree = s₃.tree ∨ s₃.tree.remove conectadosTxt = some s₆.tree := by
        rw [← trees]
        exact change_tried removed
      have swapped : SwapTried username f.text s.tree s₇.tree := swapTried rooted before
        (creatable_some free).2.1 (only₁.trans only₂) copied removing (change_tried renamed)
      refine ⟨f.text, ?_, ?_⟩
      · cases matches' : matchesSome username f.text <;>
          rw [Bool.false_or, ← matchesSome, matches'] at finished <;>
          exact (pure_ok.mp finished).1
      · have same : s'.tree = s₇.tree := by
          split at finished <;> rw [(pure_ok.mp finished).2]
        rw [same]
        exact swapped

theorem fopen_read_ok {path : Bytes} {stream : Option Stream}
    (ran : (fopen path .read).run s = .ok stream s') :
    s'.tree = s.tree ∧ (stream = none ∨
      ∃ f, stream = some f ∧ s.tree.openRead path = some (f.path, f.text)) := by
  rcases fopen_ok ran with ⟨rfl, same⟩ | ⟨f, rfl, opened⟩
  · exact ⟨same, Or.inl rfl⟩
  · obtain ⟨⟨q, text⟩, read, shape⟩ := Option.map_eq_some_iff.mp opened
    simp only [Prod.mk.injEq] at shape
    obtain ⟨rfl, rfl, same⟩ := shape
    exact ⟨same.symm, Or.inr ⟨f, rfl, read⟩⟩

/-- What a PUBLISH that is not refused does. -/
structure Published (username fileName description : Bytes) (t t' : FileTree) : Prop where
  registered : t.access (folderOf username) = true
  fresh : t.access (fileOf (folderOf username) fileName) = false
  tableOpens : t.openRead conectadosTxt ≠ none
  written : ∃ q t₁, t.openWrite (fileOf (folderOf username) fileName) = some (q, t₁) ∧
    t' = t₁.append q (description ++ [newline])

theorem publishServ_ok {username fileName description reply : Bytes}
    (ran : (publishServ username fileName description).run s = .ok reply s') :
    reply ≠ ascii "0" ∧ s'.tree = s.tree ∨
      reply = ascii "0" ∧ Published username fileName description s.tree s'.tree := by
  unfold publishServ at ran
  replace ran := access_then (sprintf_then (sprintf_then ran))
  split at ran
  · obtain ⟨rfl, rfl⟩ := pure_ok.mp ran
    exact Or.inl ⟨by decide, rfl⟩
  · rename_i registered
    replace ran := access_then ran
    split at ran
    · obtain ⟨rfl, rfl⟩ := pure_ok.mp ran
      exact Or.inl ⟨by decide, rfl⟩
    · rename_i fresh
      obtain ⟨conectadosFile, s₁, openedTable, ran⟩ := bind_ok.mp ran
      obtain ⟨same₁, shut | ⟨f, opened, read⟩⟩ := fopen_read_ok openedTable
      · rw [shut, if_pos (by rfl)] at ran
        obtain ⟨rfl, rfl⟩ := pure_ok.mp ran
        exact Or.inl ⟨by decide, same₁⟩
      · rw [opened, if_neg (by simp)] at ran
        obtain ⟨g, -, ran⟩ := unread_then ran
        obtain ⟨found, -, ran⟩ := findWord_then ran
        have scanned : ∃ s₂ : Sys, s₂.tree = s.tree ∧
            (if fileName = ascii "notfound" then (pure (ascii "4") : Op Bytes)
              else do
                let filepath ← sprintf 256 (fileOf (folderOf username) fileName)
                let file ← fopen filepath .write
                if file.isNone then
                  return ascii "4"
                fputs (description ++ [newline]) file
                fclose file
                return ascii "0").run s₂ = .ok reply s' := by
          cases found with
          | true =>
              simp only [if_true] at ran
              obtain ⟨_, s₂, closed, ran⟩ := bind_ok.mp ran
              exact ⟨s₂, (fclose_ok closed).1.trans same₁, ran⟩
          | false => exact ⟨s₁, same₁, ran⟩
        obtain ⟨s₂, same₂, ran⟩ := scanned
        split at ran
        · obtain ⟨rfl, rfl⟩ := pure_ok.mp ran
          exact Or.inl ⟨by decide, same₂⟩
        · replace ran := sprintf_then ran
          obtain ⟨file, s₃, openedFile, ran⟩ := bind_ok.mp ran
          rcases fopen_ok openedFile with ⟨shut, same₃⟩ | ⟨file', opened', created⟩
          · rw [shut, if_pos (by rfl)] at ran
            obtain ⟨rfl, rfl⟩ := pure_ok.mp ran
            exact Or.inl ⟨by decide, same₃.trans same₂⟩
          · rw [opened', if_neg (by simp)] at ran
            obtain ⟨_, s₄, wrote, ran⟩ := bind_ok.mp ran
            obtain ⟨_, s₅, closed, ran⟩ := bind_ok.mp ran
            obtain ⟨rfl, rfl⟩ := pure_ok.mp ran
            obtain ⟨g, same, appended⟩ := fputs_ok wrote
            cases same
            obtain ⟨⟨q, t₁⟩, created, shape⟩ := Option.map_eq_some_iff.mp created
            simp only [Prod.mk.injEq] at shape
            obtain ⟨rfl, -, rfl⟩ := shape
            rw [same₂] at created
            refine Or.inr ⟨rfl, by simpa using registered, by simpa using fresh, ?_, _, _,
              created, ?_⟩
            · rw [read]
              exact Option.some_ne_none _
            · rw [(fclose_ok closed).1, appended]

theorem deleteServ_ok {username fileName reply : Bytes}
    (ran : (deleteServ username fileName).run s = .ok reply s') :
    reply ≠ ascii "0" ∧ s'.tree = s.tree ∨
      reply = ascii "0" ∧ s.tree.access (folderOf username) = true ∧
        s.tree.remove (fileOf (folderOf username) fileName) = some s'.tree := by
  unfold deleteServ at ran
  split at ran
  · obtain ⟨rfl, rfl⟩ := pure_ok.mp ran
    exact Or.inl ⟨by decide, rfl⟩
  · replace ran := access_then (sprintf_then ran)
    split at ran
    · obtain ⟨rfl, rfl⟩ := pure_ok.mp ran
      exact Or.inl ⟨by decide, rfl⟩
    · rename_i registered
      obtain ⟨conectadosFile, s₁, openedTable, ran⟩ := bind_ok.mp ran
      have same₁ := (fopen_read_ok openedTable).1
      split at ran
      · obtain ⟨rfl, rfl⟩ := pure_ok.mp ran
        exact Or.inl ⟨by decide, same₁⟩
      · replace ran := sprintf_then ran
        obtain ⟨removed, s₂, tried, ran⟩ := bind_ok.mp ran
        rcases change_ok tried with ⟨rfl, same₂⟩ | ⟨rfl, gone⟩
        · obtain ⟨rfl, rfl⟩ := pure_ok.mp ran
          exact Or.inl ⟨by decide, same₂.trans same₁⟩
        · obtain ⟨rfl, rfl⟩ := pure_ok.mp ran
          rw [same₁] at gone
          exact Or.inr ⟨rfl, by simpa using registered, gone⟩

theorem listUsersServ_ok {username : Bytes} {reply : Bytes × Option Int}
    (ran : (listUsersServ username).run s = .ok reply s') : s'.tree = s.tree := by
  unfold listUsersServ at ran
  split at ran
  · obtain ⟨-, rfl⟩ := pure_ok.mp ran
    rfl
  · replace ran := access_then (sprintf_then ran)
    split at ran
    · obtain ⟨-, rfl⟩ := pure_ok.mp ran
      rfl
    · obtain ⟨conectadosFile, s₁, opened, ran⟩ := bind_ok.mp ran
      have same₁ := (fopen_read_ok opened).1
      split at ran
      · obtain ⟨-, rfl⟩ := pure_ok.mp ran
        exact same₁
      · obtain ⟨f, -, ran⟩ := unread_then ran
        obtain ⟨_, s₂, closed, ran⟩ := bind_ok.mp ran
        obtain ⟨-, rfl⟩ := pure_ok.mp ran
        exact (fclose_ok closed).1.trans same₁

theorem listContentServ_ok {username usernameFolder : Bytes} {reply : Bytes × Int × Option Bytes}
    (ran : (listContentServ username usernameFolder).run s = .ok reply s') :
    s'.tree = s.tree := by
  unfold listContentServ at ran
  replace ran := sprintf_then ran
  obtain ⟨dir, s₁, opened, ran⟩ := bind_ok.mp ran
  obtain ⟨same₁, rfl | ⟨d, rfl, -⟩⟩ := opendir_ok opened
  · obtain ⟨-, rfl⟩ := pure_ok.mp ran
    exact same₁
  · obtain ⟨_, s₂, closed, ran⟩ := bind_ok.mp ran
    replace ran := sprintf_then ran
    obtain ⟨-, rfl⟩ := pure_ok.mp ran
    exact (closedir_ok closed).trans same₁

end Operations

end DistrApp.Server
