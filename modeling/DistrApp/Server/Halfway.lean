import DistrApp.Server.Disconnect
import DistrApp.Server.Cut

/-!
# Requests that are refused halfway

A reply other than "0" promises that nothing has happened.  UNREGISTER breaks
the promise when a call fails after it has removed a file, DISCONNECT when the
table is gone and its copy cannot be renamed.  `StopsHalfway` says for which
failing calls this happens.
-/

set_option autoImplicit false

namespace DistrApp.Server

open Text FileTree Effects

/-- The entries of the connected users; none when the table is missing. -/
def connectedEntries (t : FileTree) : List Bytes := lines ((table t).getD [])

/-- The folders, the files with their text and the entries in the table are as
before.  What DISCONNECT writes in temp.txt is its own; what it finds there has
been published under that name, unless it is empty. -/
structure Untouched (t t' : FileTree) : Prop where
  folders : SameDirs t t'
  kept : ∀ q content, q ≠ tablePath t → (q = tempPath t → content ≠ []) →
    t.node q = some (.file content) → t'.node q = some (.file content)
  added : ∀ q content, q ≠ tablePath t → q ≠ tempPath t →
    t'.node q = some (.file content) → t.node q = some (.file content)
  entries : connectedEntries t' = connectedEntries t

/-- The operation stays inside its arrays, and if it replies another code than
"0", nothing has happened. -/
def RefusedUntouched (s : Sys) (request : Request) : Prop :=
  Spares (serve request) s ∧
    ∀ reply s', (serve request).run s = .ok reply s' → reply.res ≠ ascii "0" →
      Untouched s.tree s'.tree

/-- The file belongs to a user; an empty table or temp.txt belongs to nobody. -/
def Counts (t : FileTree) (p : Path) (content : Bytes) : Prop :=
  p = tempPath t ∨ p = tablePath t → content ≠ []

/-- `rmdir` refuses the folder even without its files. -/
def Stays (t : FileTree) (foldername : Bytes) (p : Path) : Prop :=
  (∃ name, t.node (p ++ [name]) = some .dir) ∨ (components foldername).getLast? = some dot ∨
    (components foldername).getLast? = some dotdot

def TableOpens (s : Sys) : Prop := s.fails 0 = false ∧ s.tree.openUpdate conectadosTxt ≠ none

def TempHolds (t : FileTree) (content : Bytes) : Prop :=
  t.node (tempPath t) = some (.file content) ∧ content ≠ []

/-- The calls that fail leave the request half done.  For UNREGISTER the files
`gone` are removed, and the next call is the first to fail.  DISCONNECT has opened
temp.txt and lost its text, before one of its two tests or by the copy of the
table; or the table is removed, and `rename` fails. -/
def StopsHalfway (s : Sys) : Request → Prop
  | .unregister username =>
      s.fails 0 = false ∧ ∃ p, s.tree.find (folderOf username) = some (p, .dir) ∧
        ∃ gone left, regularEntries (s.tree.entries p) = gone ++ left ∧
          (∀ i < gone.length, s.fails (1 + i) = false) ∧
          (s.fails (1 + gone.length) = true ∨ left = [] ∧ Stays s.tree (folderOf username) p) ∧
          ∃ name content, (name, Node.file content) ∈ gone ∧ Counts s.tree (p ++ [name]) content
  | .disconnect username =>
      s.fails 1 = false ∧ s.tree.openWrite tempTxt ≠ none ∧
        (((withTemp s.tree).access (folderOf username) = true ↔ ¬ TableOpens s) ∧
            (∃ content, TempHolds s.tree content) ∨
          (withTemp s.tree).access (folderOf username) = true ∧ TableOpens s ∧
            ∃ text, table s.tree = some text ∧ (∀ piece ∈ pieces 256 text, ¬ username <:+: piece) ∧
              (s.fails 2 = false ∧ s.fails 3 = true ∧ text ≠ [] ∨
                ∃ content, TempHolds s.tree content ∧ ¬ (s.fails 3 = true ∧ content = text)))
  | _ => False

/-! ## Requests that leave everything in place -/

section Kept
variable {t t' : FileTree}

theorem Untouched.refl (t : FileTree) : Untouched t t :=
  ⟨SameDirs.refl t, fun _ _ _ _ => id, fun _ _ _ _ => id, rfl⟩

theorem connectedEntries_of_table (same : table t' = table t) :
    connectedEntries t' = connectedEntries t := by
  rw [connectedEntries, connectedEntries, same]

theorem connectedEntries_none_iff {text : Bytes} (before : table t = some text)
    (after : table t' = none) : connectedEntries t' = connectedEntries t ↔ text = [] := by
  rw [connectedEntries, connectedEntries, before, after, Option.getD_none, Option.getD_some, lines_nil]
  constructor
  · intro same
    have joined := congrArg List.flatten same
    rw [lines_flatten] at joined
    exact joined.symm
  · rintro rfl
    rfl

theorem untouched_opened {file : Path} {text : Bytes}
    (opened : t.openAppend conectadosTxt = some (file, text, t')) : Untouched t t' := by
  obtain ⟨_, _, now, only, before⟩ := openAppend_table opened
  have here := table_of_node_file only.cwd now
  refine ⟨⟨only.cwd, fun q => ?_⟩, fun q content notTable _ file => ?_,
    fun q content notTable _ file => ?_, ?_⟩
  · by_cases onTable : q = tablePath t
    · obtain ⟨free, _⟩ := openAppend_some opened
      have notDir := (creatable_some free).2.1
      rw [(openAppend_table opened).2.1, ← onTable] at notDir
      rw [onTable, now]
      exact iff_of_false (by simp) (onTable ▸ notDir)
    · rw [only.others q onTable]
  · rwa [only.others q notTable]
  · rwa [← only.others q notTable]
  · rw [connectedEntries, connectedEntries, here]
    rcases before with before | ⟨before, rfl⟩
    · rw [before]
    · rw [before]
      rfl

end Kept

/-! ## The deleting loop -/

structure Swept (p : Path) (gone : List (Name × Node)) (t t' : FileTree) : Prop where
  dirs : SameDirs t t'
  away : ∀ e ∈ gone, t'.node (p ++ [e.1]) = none
  others : ∀ q, (∀ e ∈ gone, q ≠ p ++ [e.1]) → t'.node q = t.node q

theorem Swept.cons {p : Path} {name : Name} {content : Bytes} {gone : List (Name × Node)}
    {t t' : FileTree} (here : t.node (p ++ [name]) = some (.file content))
    (later : Swept p gone (t.erase (p ++ [name])) t') :
    Swept p ((name, .file content) :: gone) t t' := by
  have first := node_erase_self (removable_of_file here)
  refine ⟨(erase_file_sameDirs here).trans later.dirs, ?_, ?_⟩
  · intro e member
    by_cases again : ∃ other ∈ gone, p ++ [e.1] = p ++ [other.1]
    · obtain ⟨other, inside, same⟩ := again
      rw [same]
      exact later.away other inside
    · rcases List.mem_cons.mp member with rfl | inside
      · rw [later.others _ fun other inside same => again ⟨other, inside, same⟩]
        exact first
      · exact later.away e inside
  · intro q different
    rw [later.others q fun e inside => different e (List.mem_cons_of_mem _ inside)]
    exact node_erase_ne t (different _ List.mem_cons_self)

/-- What the loop has done when it ends: the files `gone` are removed, and
nothing is left, or the next path does not fit, or its `remove` fails. -/
structure LoopEnds (foldername : Bytes) (p : Path) (listed : List (Name × Node)) (s : Sys)
    (gone left : List (Name × Node)) (s' : Sys) : Prop where
  split : regularEntries listed = gone ++ left
  fit : ∀ e ∈ gone, foldername.length + 1 + e.1.length < 1024
  work : ∀ i < gone.length, s.fails i = false
  swept : Swept p gone s.tree s'.tree
  ends : (left = [] ∧ s'.faults = s.faults.drop gone.length ∧
        (removeFiles foldername listed).run s = .ok true s') ∨
    (∃ e rest, left = e :: rest ∧ 1024 ≤ foldername.length + 1 + e.1.length ∧
        (removeFiles foldername listed).run s = .error .overflow s') ∨
    (∃ e rest, left = e :: rest ∧ foldername.length + 1 + e.1.length < 1024 ∧
        s.fails gone.length = true ∧ (removeFiles foldername listed).run s = .ok false s')

/-- One more file before the others, which is removed. -/
theorem LoopEnds.cons {foldername : Bytes} {p : Path} {name : Name} {content : Bytes}
    {rest gone left : List (Name × Node)} {s s' : Sys}
    (here : s.tree.node (p ++ [name]) = some (.file content))
    (sized : foldername.length + 1 + name.length < 1024) (fault : s.fails 0 = false)
    (start : (removeFiles foldername ((name, .file content) :: rest)).run s =
      (removeFiles foldername rest).run { s.afterFault with tree := s.tree.erase (p ++ [name]) })
    (loop : LoopEnds foldername p rest { s.afterFault with tree := s.tree.erase (p ++ [name]) }
      gone left s') :
    LoopEnds foldername p ((name, .file content) :: rest) s ((name, .file content) :: gone) left
      s' := by
  have shift : ∀ i, Sys.fails { s.afterFault with tree := s.tree.erase (p ++ [name]) } i =
      s.fails (i + 1) := by
    intro i
    rw [fails_drop (s := s) (n := 1) (by simp [Sys.afterFault]), Nat.add_comm]
  refine ⟨?_, ?_, ?_, loop.swept.cons here, ?_⟩
  · exact congrArg ((name, Node.file content) :: ·) loop.split
  · intro e member
    rcases List.mem_cons.mp member with rfl | member
    · exact sized
    · exact loop.fit e member
  · intro i below
    cases i with
    | zero => exact fault
    | succ i =>
        rw [← shift]
        exact loop.work i (by simpa using below)
  · rw [start, List.length_cons, ← shift gone.length]
    refine loop.ends.imp_left ?_
    rintro ⟨empty, faults, ran⟩
    refine ⟨empty, ?_, ran⟩
    rw [faults]
    simp [Sys.afterFault, List.drop_tail]

theorem removeFiles_ends {foldername : Bytes} {p : Path} (nonempty : foldername ≠ []) :
    ∀ (listed : List (Name × Node)) (s : Sys), s.tree.resolve foldername = some p →
      (listed.map Prod.fst).Nodup → (∀ e ∈ listed, s.tree.node (p ++ [e.1]) = some e.2) →
      ∃ gone left s', LoopEnds foldername p listed s gone left s' := by
  intro listed
  induction listed with
  | nil =>
      intro s _ _ _
      exact ⟨[], [], s, rfl, by simp, by simp, ⟨SameDirs.refl _, by simp, fun _ _ => rfl⟩,
        Or.inl ⟨rfl, rfl, rfl⟩⟩
  | cons e rest ih =>
      intro s resolved distinct stored
      obtain ⟨name, n⟩ := e
      rw [List.map_cons, List.nodup_cons] at distinct
      have here : s.tree.node (p ++ [name]) = some n := stored (name, n) List.mem_cons_self
      have storedRest : ∀ e ∈ rest, s.tree.node (p ++ [e.1]) = some e.2 :=
        fun e member => stored e (List.mem_cons_of_mem _ member)
      cases n with
      | dir =>
          obtain ⟨gone, left, s', loop⟩ := ih s resolved distinct.2 storedRest
          exact ⟨gone, left, s', loop.split, loop.fit, loop.work, loop.swept, loop.ends⟩
      | file content =>
          have shape : regularEntries ((name, Node.file content) :: rest) =
              (name, .file content) :: regularEntries rest := rfl
          have still : Swept p [] s.tree s.tree := ⟨SameDirs.refl _, by simp, fun _ _ => rfl⟩
          by_cases sized : foldername.length + 1 + name.length < 1024
          · have start : (removeFiles foldername ((name, Node.file content) :: rest)).run s =
                match (change fun t => t.remove (foldername ++ ascii "/" ++ name)).run s with
                | .ok true s₁ => (removeFiles foldername rest).run s₁
                | .ok false s₁ => .ok false s₁
                | .error e s₁ => .error e s₁ := by
              simp only [removeFiles, run_sprintf, length_filepath, if_pos sized]
              rw [remove, EStateM.run_bind]
              cases (change fun t => t.remove (foldername ++ ascii "/" ++ name)).run s with
              | ok done s₁ => cases done <;> rfl
              | error e s₁ => rfl
            rw [change_run, headD_faults, remove_child nonempty resolved here] at start
            cases fault : s.fails 0 with
            | true =>
                rw [fault, if_pos rfl] at start
                exact ⟨[], _, s.afterFault, shape, by simp, by simp, still,
                  Or.inr (Or.inr ⟨_, _, rfl, sized, fault, start⟩)⟩
            | false =>
                rw [fault, if_neg Bool.false_ne_true] at start
                simp only at start
                have apart : ∀ e ∈ rest, p ++ [e.1] ≠ p ++ [name] := by
                  intro e member same
                  have names : e.1 = name := by simpa using same
                  exact distinct.1 (List.mem_map.mpr ⟨e, member, names⟩)
                obtain ⟨gone, left, s', loop⟩ := ih
                  { s.afterFault with tree := s.tree.erase (p ++ [name]) }
                  (by rw [(erase_file_sameDirs here).resolve]; exact resolved) distinct.2
                  (fun e member => by
                    rw [node_erase_ne s.tree (apart e member)]; exact storedRest e member)
                exact ⟨_, left, s', loop.cons here sized fault start⟩
          · refine ⟨[], _, s, shape, by simp, by simp, still,
              Or.inr (Or.inl ⟨_, _, rfl, not_lt.mp sized, ?_⟩)⟩
            simp only [removeFiles, run_sprintf, length_filepath, if_neg sized]

/-! ## UNREGISTER -/

section Unregister
variable {s : Sys} {username : Bytes} {p : Path}

theorem LoopEnds.agrees {foldername : Bytes} {listed gone left gone' left' : List (Name × Node)}
    {s' : Sys} (loop : LoopEnds foldername p listed s gone left s')
    (fit : ∀ gone e rest, regularEntries listed = gone ++ e :: rest →
      (∀ i < gone.length, s.fails i = false) → foldername.length + 1 + e.1.length < 1024)
    (split : regularEntries listed = gone' ++ left')
    (work : ∀ i < gone'.length, s.fails i = false)
    (next : s.fails gone'.length = true ∨ left' = []) : gone' = gone ∧ left' = left := by
  have whole : gone' ++ left' = gone ++ left := split.symm.trans loop.split
  have length : gone'.length = gone.length := by
    rcases Nat.lt_trichotomy gone'.length gone.length with less | same | more
    · have lengths := congrArg List.length whole
      simp only [List.length_append] at lengths
      rcases next with fault | rfl
      · rw [loop.work _ less] at fault
        cases fault
      · simp only [List.length_nil] at lengths
        omega
    · exact same
    · rcases loop.ends with ⟨empty, _⟩ | ⟨e, rest, shape, long, _⟩ | ⟨_, _, _, _, fault, _⟩
      · have lengths := congrArg List.length whole
        simp only [List.length_append, empty, List.length_nil] at lengths
        omega
      · exact absurd long (not_le.mpr (fit gone e rest (shape ▸ loop.split) loop.work))
      · rw [work _ more] at fault
        cases fault
  exact List.append_inj whole length

theorem unregisterServ_opened (short : username.length < 244) (works : s.fails 0 = false)
    (found : s.tree.find (folderOf username) = some (p, .dir)) :
    (unregisterServ username).run s =
      match (removeFiles (folderOf username) (s.tree.entries p)).run
          { s.afterFault with handles := s.handles ++ [HandleEvent.opened s.handles.length] } with
      | .error e s₁ => .error e s₁
      | .ok false s₁ =>
          .ok (ascii "2") { s₁ with handles := s₁.handles ++ [.closed s.handles.length] }
      | .ok true s₁ =>
          let closed : Sys := { s₁ with handles := s₁.handles ++ [.closed s.handles.length] }
          if s₁.fails 0 then .ok (ascii "2") closed.afterFault
          else match s₁.tree.rmdir (folderOf username) with
            | none => .ok (ascii "2") closed.afterFault
            | some tree => .ok (ascii "0") { closed.afterFault with tree := tree } := by
  have opened : s.tree.opendir (folderOf username) = some (s.tree.entries p) := by
    rw [FileTree.opendir, found]
  have first := opendir_run s (folderOf username)
  rw [headD_faults, works, if_neg Bool.false_ne_true, opened] at first
  simp only [unregisterServ, run_sprintf, length_folderOf_lt, run_access, run_ite,
    access_of_find found]
  rw [if_pos (by omega), if_neg (by simp), EStateM.run_bind, first]
  simp only
  rw [EStateM.run_bind]
  cases (removeFiles (folderOf username) (s.tree.entries p)).run
      { s.afterFault with handles := s.handles ++ [HandleEvent.opened s.handles.length] } with
  | error e s₁ => rfl
  | ok done s₁ =>
      cases done with
      | false => rfl
      | true =>
          let closed : Sys := { s₁ with handles := s₁.handles ++ [.closed s.handles.length] }
          have last := change_run closed fun t => t.rmdir (folderOf username)
          have same : closed.fails 0 = s₁.fails 0 := rfl
          rw [headD_faults, same] at last
          simp only [Bool.not_true, Bool.false_eq_true, if_false, run_closedir]
          rw [rmdir, EStateM.run_bind, last]
          cases fault : s₁.fails 0 with
          | true => rfl
          | false => cases s₁.tree.rmdir (folderOf username) <;> rfl

theorem unregisterServ_unopened (unopened : s.fails 0 = true ∨
      ∀ p, s.tree.find (folderOf username) ≠ some (p, .dir)) {reply : Bytes} {s' : Sys}
    (ran : (unregisterServ username).run s = .ok reply s') : s'.tree = s.tree := by
  unfold unregisterServ at ran
  replace ran := access_then (sprintf_then ran)
  split at ran
  · rw [(pure_ok.mp ran).2]
  · rw [EStateM.run_bind, opendir_run, headD_faults] at ran
    have refused : s.fails 0 = true ∨ s.tree.opendir (folderOf username) = none := by
      refine unopened.imp_right fun absent => ?_
      rw [FileTree.opendir]
      split
      · rename_i p found
        exact absurd found (absent p)
      · rfl
    rcases refused with fault | closed
    · rw [if_pos fault] at ran
      rw [(pure_ok.mp ran).2]
      rfl
    · rw [closed] at ran
      cases fault : s.fails 0 <;> rw [fault] at ran <;> rw [(pure_ok.mp ran).2] <;> rfl

theorem swept_emptied {t t' : FileTree} {gone : List (Name × Node)}
    (swept : Swept p gone t t') (all : regularEntries (t.entries p) = gone) : Emptied p t t' := by
  have listed : ∀ name n, (name, n) ∈ gone ↔ t.node (p ++ [name]) = some n ∧ n ≠ .dir := by
    intro name n
    rw [← all, regularEntries, List.mem_filter, mem_entries]
    simp
  refine ⟨swept.dirs, fun name content file => ?_, fun q different => ?_⟩
  · exact swept.away (name, .file content) ((listed name _).mpr ⟨file, by simp⟩)
  · refine swept.others q ?_
    rintro ⟨name, n⟩ member rfl
    obtain ⟨here, notDir⟩ := (listed name n).mp member
    cases n with
    | dir => exact notDir rfl
    | file content => exact different name content rfl here

theorem untouched_swept_iff {t t' : FileTree} {gone left : List (Name × Node)}
    (swept : Swept p gone t t') (split : regularEntries (t.entries p) = gone ++ left) :
    Untouched t t' ↔
      ¬ ∃ name content, (name, Node.file content) ∈ gone ∧ Counts t (p ++ [name]) content := by
  have listed : ∀ e ∈ gone, e ∈ regularEntries (t.entries p) := by
    intro e member
    rw [split]
    exact List.mem_append_left _ member
  have stored : ∀ name n, (name, n) ∈ gone → t.node (p ++ [name]) = some n := fun name n member =>
    mem_entries.mp (List.mem_filter.mp (listed _ member)).1
  have files : ∀ name n, (name, n) ∈ gone → ∃ content, n = .file content := by
    intro name n member
    cases n with
    | dir => exact absurd (List.mem_filter.mp (listed _ member)).2 (by simp)
    | file content => exact ⟨content, rfl⟩
  have removed : ∀ q content, t.node q = some (.file content) → (∃ e ∈ gone, q = p ++ [e.1]) →
      ∃ name, q = p ++ [name] ∧ (name, Node.file content) ∈ gone := by
    rintro q content here ⟨⟨name, n⟩, member, rfl⟩
    rw [stored name n member] at here
    exact ⟨name, rfl, Option.some.inj here ▸ member⟩
  constructor
  · rintro untouched ⟨name, content, member, counted⟩
    have here := stored name _ member
    have away : t'.node (p ++ [name]) = none := swept.away _ member
    by_cases onTable : p ++ [name] = tablePath t
    · refine counted (Or.inr onTable) ?_
      rw [onTable] at here away
      exact (connectedEntries_none_iff (table_eq_some.mpr here)
        (table_of_node_none swept.dirs.cwd away)).mp untouched.entries
    · have kept := untouched.kept _ content onTable (fun onTemp => counted (Or.inl onTemp)) here
      rw [away] at kept
      cases kept
  · intro nothing
    refine ⟨swept.dirs, fun q content notTable hasText here => ?_, fun q content _ _ now => ?_, ?_⟩
    · by_cases inside : ∃ e ∈ gone, q = p ++ [e.1]
      · obtain ⟨name, rfl, member⟩ := removed q content here inside
        exact absurd ⟨name, content, member, fun special =>
          special.elim hasText fun onTable => absurd onTable notTable⟩ nothing
      · rw [swept.others q fun e member same => inside ⟨e, member, same⟩]
        exact here
    · by_cases inside : ∃ e ∈ gone, q = p ++ [e.1]
      · obtain ⟨e, member, rfl⟩ := inside
        rw [swept.away e member] at now
        cases now
      · rwa [swept.others q fun e member same => inside ⟨e, member, same⟩] at now
    · by_cases inside : ∃ e ∈ gone, tablePath t = p ++ [e.1]
      · obtain ⟨⟨name, n⟩, member, path⟩ := inside
        obtain ⟨text, rfl⟩ := files name n member
        have here := stored name _ member
        have away := swept.away _ member
        rw [← path] at here away
        refine (connectedEntries_none_iff (table_eq_some.mpr here)
          (table_of_node_none swept.dirs.cwd away)).mpr ?_
        by_contra some_text
        exact nothing ⟨name, text, member, fun _ => some_text⟩
      · exact connectedEntries_of_table (table_of_node_eq swept.dirs.cwd
          (swept.others _ fun e member same => inside ⟨e, member, same⟩))

theorem stopsHalfway_iff_ends (works : s.fails 0 = false) (paths : PathsFit s username p)
    (found : s.tree.find (folderOf username) = some (p, .dir)) {b s₁ : Sys}
    (shift : ∀ i, b.fails i = s.fails (1 + i)) {gone left : List (Name × Node)}
    (loop : LoopEnds (folderOf username) p (s.tree.entries p) b gone left s₁) :
    StopsHalfway s (.unregister username) ↔
      (s.fails (1 + gone.length) = true ∨ left = [] ∧ Stays s.tree (folderOf username) p) ∧
        ∃ name content, (name, Node.file content) ∈ gone ∧ Counts s.tree (p ++ [name]) content := by
  have fit : ∀ gone e rest, regularEntries (s.tree.entries p) = gone ++ e :: rest →
      (∀ i < gone.length, b.fails i = false) →
      (folderOf username).length + 1 + e.1.length < 1024 := by
    intro gone e rest split work
    have short := paths gone e rest split fun i below => by rw [← shift]; exact work i below
    rw [folderOf_length]
    omega
  constructor
  · rintro ⟨_, q, found', gone', left', split, work, next, counted⟩
    rw [found] at found'
    cases found'
    obtain ⟨rfl, rfl⟩ := loop.agrees fit split (fun i below => by rw [shift]; exact work i below)
      (next.imp (fun fault => by rw [shift]; exact fault) And.left)
    exact ⟨next, counted⟩
  · rintro ⟨next, counted⟩
    refine ⟨works, p, found, gone, left, loop.split, fun i below => ?_, next, counted⟩
    rw [← shift]
    exact loop.work i below

theorem refused_iff {op : Op Bytes} {s s₂ : Sys} {res : Bytes} (refuses : res ≠ ascii "0")
    (ran : op.run s = .ok res s₂) :
    (∀ reply s', op.run s = .ok reply s' → reply ≠ ascii "0" → Untouched s.tree s'.tree) ↔
      Untouched s.tree s₂.tree := by
  constructor
  · intro refused
    exact refused _ _ ran refuses
  · intro untouched reply s' ran' _
    rw [ran] at ran'
    cases ran'
    exact untouched

theorem refused_of_error {op : Op Bytes} {s s₂ : Sys} {e : Undefined} (ran : op.run s = .error e s₂) :
    ∀ reply s', op.run s = .ok reply s' → reply ≠ ascii "0" → Untouched s.tree s'.tree := by
  intro reply s' ran'
  rw [ran] at ran'
  cases ran'

theorem unregister_untouched_iff (holds : HoldsOn s (.unregister username)) :
    (∀ reply s', (unregisterServ username).run s = .ok reply s' → reply ≠ ascii "0" →
        Untouched s.tree s'.tree) ↔
      ¬ StopsHalfway s (.unregister username) := by
  obtain ⟨short, paths⟩ := holds
  by_cases opens : s.fails 0 = false ∧ ∃ p, s.tree.find (folderOf username) = some (p, .dir)
  · obtain ⟨works, p, found⟩ := opens
    have fit := paths works p found
    let b : Sys := { s.afterFault with
      handles := s.handles ++ [HandleEvent.opened s.handles.length] }
    have shift : ∀ i, b.fails i = s.fails (1 + i) :=
      fun i => fails_drop (n := 1) (by simp [b, Sys.afterFault]) i
    obtain ⟨gone, left, s₁, loop⟩ := removeFiles_ends (folderOf_ne_nil username)
      (s.tree.entries p) b (find_node found).1 (entries_names_nodup s.tree p)
      (fun e member => mem_entries.mp member)
    have ran := unregisterServ_opened short works found
    have swept : Swept p gone s.tree s₁.tree := loop.swept
    have kept := untouched_swept_iff swept loop.split
    rw [stopsHalfway_iff_ends works fit found shift loop]
    rcases loop.ends with ⟨rfl, faults, looped⟩ | ⟨e, rest, rfl, long, looped⟩ |
      ⟨e, rest, rfl, _, fault, looped⟩
    · have last : s₁.fails 0 = s.fails (1 + gone.length) := by
        rw [fails_drop faults, shift, Nat.add_zero]
      have leaves := rmdir_emptied found
        (swept_emptied swept (by rw [loop.split, List.append_nil]))
      rw [looped] at ran
      simp only [last] at ran
      cases fault : s.fails (1 + gone.length) with
      | true =>
          rw [fault, if_pos rfl] at ran
          refine (refused_iff (by decide) ran).trans (kept.trans ?_)
          simp
      | false =>
          rw [fault, if_neg Bool.false_ne_true] at ran
          cases removed : s₁.tree.rmdir (folderOf username) with
          | none =>
              have stays : Stays s.tree (folderOf username) p := leaves.mp removed
              rw [removed] at ran
              refine (refused_iff (by decide) ran).trans (kept.trans ?_)
              simp [stays]
          | some tree =>
              have goes : ¬ Stays s.tree (folderOf username) p := by
                intro stays
                rw [leaves.mpr stays] at removed
                cases removed
              rw [removed] at ran
              refine iff_of_true ?_ ?_
              · intro reply s' ran' refused
                rw [ran] at ran'
                cases ran'
                exact absurd rfl refused
              · rintro ⟨impossible | ⟨_, stays⟩, _⟩
                · cases impossible
                · exact goes stays
    · -- a path that does not fit is not among those that `fit` speaks of
      have small := fit gone e rest loop.split fun i below => by
        rw [← shift]
        exact loop.work i below
      rw [folderOf_length] at long
      omega
    · rw [looped] at ran
      rw [shift] at fault
      refine (refused_iff (by decide) ran).trans (kept.trans ?_)
      simp [fault]
  · refine iff_of_true ?_ ?_
    · intro reply s' ran _
      have same := unregisterServ_unopened (by
        rw [not_and_or, not_exists, Bool.not_eq_false] at opens
        exact opens) ran
      rw [same]
      exact Untouched.refl _
    · rintro ⟨works, p, found, _⟩
      exact opens ⟨works, p, found⟩

end Unregister

/-! ## DISCONNECT -/

section Disconnect
variable {s s' : Sys} {username : Bytes}

theorem rename_temp_works {t : FileTree} {new : Bytes} (rooted : Rooted t)
    (tempHere : t.node (tempPath t) = some (.file new)) (free : t.node (tablePath t) ≠ some .dir) :
    ∃ t', t.rename tempTxt conectadosTxt = some t' := by
  have source : t.find tempTxt = some (tempPath t, .file new) := by
    rw [tempTxt_eq, find_name rooted valid_temp, ← tempPath, tempHere]
    rfl
  have target : t.resolve conectadosTxt = some (tablePath t) := by
    rw [conectadosTxt_eq, resolve_name rooted valid_conectados, if_pos (usuarios_isDir tempHere),
      ← tablePath]
  have plain : conectadosTxt.getLast? ≠ some slash := by decide
  refine ⟨(t.erase (tempPath t)).put (tablePath t) (.file new), ?_⟩
  rw [FileTree.rename, source, target]
  simp only
  rw [if_neg (by simp [free, plain]), if_neg (tempPath_ne_tablePath t)]

theorem run_change_then (s : Sys) (attempt : FileTree → Option FileTree) {tree : FileTree}
    (works : attempt s.tree = some tree) (next : Bool → Op Bytes) :
    (change attempt >>= next).run s =
      if s.fails 0 then (next false).run s.afterFault
      else (next true).run { s.afterFault with tree := tree } := by
  rw [EStateM.run_bind, change_run, headD_faults, works]
  cases s.fails 0 <;> rfl

theorem run_then {α β : Type} {op : Op α} {next : α → Op β} {a : α}
    (ran : op.run s = .ok a s') : (op >>= next).run s = (next a).run s' := by
  rw [EStateM.run_bind, ran]

structure SwapEnds (t : FileTree) (removeFails renameFails : Bool) (old new : Bytes)
    (t' : FileTree) : Prop where
  cwd : t'.cwd = t.cwd
  tableNow : t'.node (tablePath t) =
    if renameFails then (if removeFails then some (.file old) else none) else some (.file new)
  tempNow : t'.node (tempPath t) = if renameFails then some (.file new) else none
  others : ∀ q, q ≠ tablePath t → q ≠ tempPath t → t'.node q = t.node q

theorem run_swap {old new : Bytes} (rooted : Rooted s.tree)
    (tableHere : s.tree.node (tablePath s.tree) = some (.file old))
    (tempHere : s.tree.node (tempPath s.tree) = some (.file new)) (reply : Bytes) :
    ∃ s₂, (remove conectadosTxt >>= fun _ =>
        rename tempTxt conectadosTxt >>= fun _ => pure reply).run s = .ok reply s₂ ∧
      SwapEnds s.tree (s.fails 0) (s.fails 1) old new s₂.tree := by
  have apart := tempPath_ne_tablePath s.tree
  have removed : s.tree.remove conectadosTxt = some (s.tree.erase (tablePath s.tree)) := by
    rw [FileTree.remove, find_table rooted, tableHere]
    rfl
  have dirs := erase_file_sameDirs tableHere
  obtain ⟨t₁, ran₁, cwd₁, rooted₁, table₁, others₁⟩ : ∃ t₁,
      (remove conectadosTxt >>= fun _ =>
          rename tempTxt conectadosTxt >>= fun _ => pure reply).run s =
        (rename tempTxt conectadosTxt >>= fun _ => (pure reply : Op Bytes)).run
          { s.afterFault with tree := t₁ } ∧ t₁.cwd = s.tree.cwd ∧ Rooted t₁ ∧
        t₁.node (tablePath s.tree) = (if s.fails 0 then some (.file old) else none) ∧
        ∀ q, q ≠ tablePath s.tree → t₁.node q = s.tree.node q := by
    have ran := run_change_then s (fun t => t.remove conectadosTxt) removed fun _ =>
      rename tempTxt conectadosTxt >>= fun _ => (pure reply : Op Bytes)
    cases fault : s.fails 0 with
    | true =>
        rw [fault, if_pos rfl] at ran
        exact ⟨s.tree, ran, rfl, rooted, tableHere, fun _ _ => rfl⟩
    | false =>
        rw [fault, if_neg Bool.false_ne_true] at ran
        exact ⟨_, ran, dirs.cwd, (rooted_congr dirs).mpr rooted,
          node_erase_self (removable_of_file tableHere), fun q => node_erase_ne s.tree⟩
  have temp₁ : t₁.node (tempPath s.tree) = some (.file new) := by
    rw [others₁ _ apart, tempHere]
  have temp₁' : t₁.node (tempPath t₁) = some (.file new) := by
    rw [tempPath_congr cwd₁]
    exact temp₁
  have free : t₁.node (tablePath t₁) ≠ some .dir := by
    rw [tablePath_congr cwd₁, table₁]
    split <;> simp
  obtain ⟨t₂, renamed⟩ := rename_temp_works rooted₁ temp₁' free
  have ran₂ := run_change_then { s.afterFault with tree := t₁ }
    (fun t => t.rename tempTxt conectadosTxt) renamed fun _ => (pure reply : Op Bytes)
  have shift : Sys.fails { s.afterFault with tree := t₁ } 0 = s.fails 1 :=
    fails_drop (n := 1) (by simp [Sys.afterFault]) 0
  rw [shift] at ran₂
  rw [ran₁]
  cases fault : s.fails 1 with
  | true =>
      rw [fault, if_pos rfl] at ran₂
      exact ⟨_, ran₂, cwd₁, table₁, temp₁, fun q notTable _ => others₁ q notTable⟩
  | false =>
      rw [fault, if_neg Bool.false_ne_true] at ran₂
      obtain ⟨cwd₂, tableNow, tempNow, others₂⟩ := rename_temp rooted₁ temp₁' renamed
      rw [tablePath_congr cwd₁] at tableNow others₂
      rw [tempPath_congr cwd₁] at tempNow others₂
      exact ⟨_, ran₂, cwd₂.trans cwd₁, tableNow, tempNow, fun q notTable notTemp =>
        (others₂ q notTable notTemp).trans (others₁ q notTable)⟩

theorem fopen_table_run (s : Sys) : ∃ conectadosFile s₁,
    (fopen conectadosTxt .update).run s = .ok conectadosFile s₁ ∧ s₁.tree = s.tree ∧
      s₁.faults = s.faults.tail ∧ (conectadosFile.isNone = true ↔ ¬ TableOpens s) := by
  rw [fopen_run, headD_faults, TableOpens]
  cases fault : s.fails 0 with
  | true => exact ⟨none, s.afterFault, rfl, rfl, rfl, by simp⟩
  | false =>
      rw [if_neg Bool.false_ne_true, openFile]
      cases s.tree.openUpdate conectadosTxt with
      | none => exact ⟨none, s.afterFault, rfl, rfl, rfl, by simp⟩
      | some file => exact ⟨_, _, rfl, rfl, rfl, by simp⟩

theorem fopen_temp_run (s : Sys) : ∃ tempFile s₁,
    (fopen tempTxt .write).run s = .ok tempFile s₁ ∧
      s₁.tree = (if s.fails 0 then s.tree else withTemp s.tree) ∧
      (s.fails 0 = true ∨ s.tree.openWrite tempTxt = none → tempFile = none) := by
  rw [fopen_run, headD_faults]
  cases fault : s.fails 0 with
  | true => exact ⟨none, s.afterFault, rfl, rfl, fun _ => rfl⟩
  | false =>
      rw [if_neg Bool.false_ne_true, openFile]
      cases created : s.tree.openWrite tempTxt with
      | none => exact ⟨none, s.afterFault, rfl, (withTemp_of_none created).symm, fun _ => rfl⟩
      | some file =>
          refine ⟨_, _, rfl, (withTemp_of_some created).symm, fun closed => ?_⟩
          rcases closed with fault | closed
          · cases fault
          · cases closed

def scratched (s : Sys) : FileTree := if s.fails 1 then s.tree else withTemp s.tree

/-- What the tests of DISCONNECT let pass: without a folder it closes the table,
with one it reads it, and then needs temp.txt. -/
theorem disconnectServ_tests (short : username.length < 244) :
    ((scratched s).access (folderOf username) = false → ¬ TableOpens s →
        ∃ s', (disconnectServ username).run s = .error .nullStream s') ∧
      ((scratched s).access (folderOf username) = false → TableOpens s →
        ∃ s', (disconnectServ username).run s = .ok (ascii "1") s' ∧ s'.tree = scratched s) ∧
      ((scratched s).access (folderOf username) = true → ¬ TableOpens s →
        ∃ s', (disconnectServ username).run s = .ok (ascii "3") s' ∧ s'.tree = scratched s) ∧
      ((scratched s).access (folderOf username) = true → TableOpens s →
        s.fails 1 = true ∨ s.tree.openWrite tempTxt = none →
          ∃ s', (disconnectServ username).run s = .error .nullStream s') := by
  obtain ⟨conectadosFile, s₁, first, tree₁, faults₁, opens⟩ := fopen_table_run s
  obtain ⟨tempFile, s₂, second, tree₂, closed⟩ := fopen_temp_run s₁
  have shift : s₁.fails 0 = s.fails 1 := fails_drop (n := 1) (by rw [faults₁, List.drop_one]) 0
  rw [shift, tree₁] at tree₂ closed
  have tree : s₂.tree = scratched s := tree₂
  have ran : (disconnectServ username).run s = _ := (run_then first).trans (run_then second)
  rw [run_sprintf, if_pos (by rw [folderOf_length]; omega), run_access, tree, run_ite] at ran
  refine ⟨fun absent shut => ?_, fun absent open_ => ?_, fun present shut => ?_,
    fun present open_ noTemp => ?_⟩
  · rw [absent] at ran
    obtain rfl := Option.isNone_iff_eq_none.mp (opens.mpr shut)
    exact ⟨_, ran⟩
  · rw [absent] at ran
    cases conectadosFile with
    | none => exact absurd open_ (opens.mp rfl)
    | some f => exact ⟨_, ran, tree⟩
  · rw [present] at ran
    obtain rfl := Option.isNone_iff_eq_none.mp (opens.mpr shut)
    exact ⟨_, ran, tree⟩
  · rw [present] at ran
    obtain rfl := closed noTemp
    cases conectadosFile with
    | none => exact absurd open_ (opens.mp rfl)
    | some f =>
        simp only [Bool.not_true, Bool.false_eq_true, if_false, Option.isNone_some, run_unread_some]
          at ran
        rw [EStateM.run_bind] at ran
        rcases run_copyOthers_null username (pieces 256 f.text) false s₂ with failed | ⟨found, looped⟩
        · rw [failed] at ran
          exact ⟨_, ran⟩
        · rw [looped] at ran
          exact ⟨_, ran⟩

theorem disconnectServ_opened {text : Bytes} (short : username.length < 244)
    (works : ∀ i < 2, s.fails i = false) (rooted : Rooted s.tree)
    (here : table s.tree = some text) (tempFree : s.tree.node (tempPath s.tree) ≠ some .dir)
    (present : (withTemp s.tree).access (folderOf username) = true) :
    ∃ s₂, (disconnectServ username).run s =
        .ok (if matchesSome username text then ascii "0" else ascii "2") s₂ ∧
      SwapEnds s.tree (s.fails 2) (s.fails 3) text (kept username text) s₂.tree := by
  have tableHere := table_eq_some.mp here
  have update : s.tree.openUpdate conectadosTxt = some (tablePath s.tree, text) :=
    openUpdate_table.mpr ⟨rooted, rfl, here⟩
  obtain ⟨t₁, created⟩ := openWrite_temp_exists rooted (usuarios_isDir tableHere) tempFree
  obtain ⟨_, empty, only₁⟩ := openWrite_some created
  have apart := tempPath_ne_tablePath s.tree
  let s₁ : Sys := { s.afterFault with
    handles := s.handles ++ [HandleEvent.opened s.handles.length] }
  let b : Sys := { s₁.afterFault with
    tree := t₁, handles := s₁.handles ++ [HandleEvent.opened s₁.handles.length] }
  have first : (fopen conectadosTxt .update).run s =
      .ok (some ⟨s.handles.length, tablePath s.tree, text⟩) s₁ := by
    rw [fopen_run, headD_faults, works 0 (by omega), if_neg Bool.false_ne_true, openFile, update]
    rfl
  have fault₁ : s₁.fails 0 = false :=
    (fails_drop (n := 1) List.drop_one.symm 0).trans (works 1 (by omega))
  have second : (fopen tempTxt .write).run s₁ =
      .ok (some ⟨s₁.handles.length, tempPath s.tree, []⟩) b := by
    rw [fopen_run, headD_faults, fault₁, if_neg Bool.false_ne_true, openFile,
      show s₁.tree.openWrite tempTxt = _ from created]
    rfl
  obtain ⟨t₂, copied, only₂, temp₂⟩ := run_copyOthers username
    ⟨s₁.handles.length, tempPath s.tree, []⟩ (pieces 256 text) false b [] empty
  have only := only₁.trans only₂
  let c : Sys := { b with tree := t₂, handles := b.handles ++
    [.closed s.handles.length] ++ [.closed s₁.handles.length] }
  have rooted₂ : Rooted c.tree := rooted_of_changesOnly only tempFree rooted
  have table₂ : c.tree.node (tablePath c.tree) = some (.file text) := by
    rw [tablePath_congr only.cwd, only.others _ apart.symm, tableHere]
  have copy₂ : c.tree.node (tempPath c.tree) = some (.file (kept username text)) := by
    rw [tempPath_congr only.cwd]
    exact temp₂
  obtain ⟨s₂, swapped, ends⟩ := run_swap rooted₂ table₂ copy₂
    (if matchesSome username text then ascii "0" else ascii "2")
  have shift : ∀ i, c.fails i = s.fails (2 + i) := by
    intro i
    apply fails_drop
    have both : c.faults = (s.faults.drop 1).drop 1 := by simp only [List.drop_one]; rfl
    rw [both, List.drop_drop]
  rw [shift, shift] at ends
  refine ⟨s₂, ?_, ends.cwd.trans only.cwd, ?_, ?_, fun q notTable notTemp => ?_⟩
  · rw [withTemp_of_some created] at present
    rw [← swapped, disconnectServ]
    refine (run_then first).trans ((run_then second).trans ?_)
    rw [run_sprintf, if_pos (by rw [folderOf_length]; omega), run_access,
      show b.tree.access (folderOf username) = true from present]
    refine (run_then copied).trans ?_
    rw [Bool.false_or, ← matchesSome, run_fclose_some, run_fclose_some]
    cases matchesSome username text <;> rfl
  · rw [← tablePath_congr only.cwd]
    exact ends.tableNow
  · rw [← tempPath_congr only.cwd]
    exact ends.tempNow
  · rw [← only.others q notTemp]
    refine ends.others q ?_ ?_
    · rw [tablePath_congr only.cwd]
      exact notTable
    · rw [tempPath_congr only.cwd]
      exact notTemp

/-- A DISCONNECT that finds nobody has done nothing, unless its copy is left in
the place of the table or of a published file. -/
theorem untouched_swap_iff {t t' : FileTree} {removeFails renameFails : Bool} {text : Bytes}
    (ends : SwapEnds t removeFails renameFails text text t') (here : table t = some text)
    (tempFree : t.node (tempPath t) ≠ some .dir) :
    Untouched t t' ↔ ¬ (removeFails = false ∧ renameFails = true ∧ text ≠ [] ∨
      ∃ content, TempHolds t content ∧ ¬ (renameFails = true ∧ content = text)) := by
  have tableNow := ends.tableNow
  have tempNow := ends.tempNow
  constructor
  · rintro untouched (⟨rfl, rfl, some_text⟩ | ⟨content, ⟨there, some_text⟩, lost⟩)
    · exact some_text ((connectedEntries_none_iff here
        (table_of_node_none ends.cwd tableNow)).mp untouched.entries)
    · have still := untouched.kept _ content (tempPath_ne_tablePath t) (fun _ => some_text) there
      rw [tempNow] at still
      split at still
      · rename_i fault
        exact lost ⟨fault, (Node.file.inj (Option.some.inj still)).symm⟩
      · cases still
  · intro nothing
    refine ⟨⟨ends.cwd, fun q => ?_⟩, fun q content notTable hasText there => ?_,
      fun q content notTable notTemp now => ?_, ?_⟩
    · by_cases onTable : q = tablePath t
      · rw [onTable, tableNow, table_eq_some.mp here]
        cases renameFails <;> cases removeFails <;> simp
      · by_cases onTemp : q = tempPath t
        · rw [onTemp, tempNow]
          refine iff_of_false ?_ tempFree
          cases renameFails <;> simp
        · rw [ends.others q onTable onTemp]
    · by_cases onTemp : q = tempPath t
      · subst onTemp
        have stays : renameFails = true ∧ content = text := by
          by_contra lost
          exact nothing (Or.inr ⟨content, ⟨there, hasText rfl⟩, lost⟩)
        rw [tempNow, stays.1, stays.2]
        rfl
      · rw [ends.others q notTable onTemp]
        exact there
    · rwa [ends.others q notTable notTemp] at now
    · cases renameFails with
      | false => exact connectedEntries_of_table ((table_of_node_file ends.cwd tableNow).trans here.symm)
      | true =>
          cases removeFails with
          | true =>
              exact connectedEntries_of_table ((table_of_node_file ends.cwd tableNow).trans here.symm)
          | false =>
              refine (connectedEntries_none_iff here (table_of_node_none ends.cwd tableNow)).mpr ?_
              by_contra some_text
              exact nothing (Or.inl ⟨rfl, rfl, some_text⟩)

theorem untouched_withTemp_iff {t : FileTree} (opens : t.openWrite tempTxt ≠ none) :
    Untouched t (withTemp t) ↔ ¬ ∃ content, TempHolds t content := by
  obtain ⟨⟨p, t'⟩, created⟩ := Option.ne_none_iff_exists'.mp opens
  obtain ⟨free, empty, only⟩ := openWrite_some created
  have resolved := (creatable_some free).1
  rw [tempTxt_eq] at resolved
  obtain rfl := openWrite_temp (rooted_of_resolve resolved) created
  have dirs := sameDirs_withTemp t
  rw [withTemp_of_some created] at dirs ⊢
  constructor
  · rintro untouched ⟨content, there, some_text⟩
    have still := untouched.kept _ content (tempPath_ne_tablePath t) (fun _ => some_text) there
    rw [empty] at still
    exact some_text (Node.file.inj (Option.some.inj still)).symm
  · intro nothing
    refine ⟨dirs, fun q content notTable hasText there => ?_, fun q content _ notTemp now => ?_,
      connectedEntries_of_table (table_of_node_eq only.cwd
        (only.others _ (tempPath_ne_tablePath t).symm))⟩
    · by_cases onTemp : q = tempPath t
      · subst onTemp
        exact absurd ⟨content, there, hasText rfl⟩ nothing
      · rwa [only.others q onTemp]
    · rwa [only.others q notTemp] at now

theorem kept_of_unmatched {text : Bytes} (clean : (0 : UInt8) ∉ text)
    (unmatched : ∀ piece ∈ pieces 256 text, ¬ username <:+: piece) : kept username text = text := by
  rw [kept_of_clean clean, List.filter_eq_self.mpr]
  · exact pieces_flatten 256 (by omega) text
  · intro piece member
    simpa using unmatched piece member

/-- Where temp.txt does not open, nothing is lost. -/
theorem disconnect_untouched_closed (short : username.length < 244)
    (closed : s.fails 1 = true ∨ s.tree.openWrite tempTxt = none) :
    ∀ reply s', (disconnectServ username).run s = .ok reply s' → reply ≠ ascii "0" →
      Untouched s.tree s'.tree := by
  obtain ⟨dies, noFolder, noTable, noTemp⟩ := @disconnectServ_tests s username short
  have seen : scratched s = s.tree := by
    rw [scratched]
    split
    · rfl
    · rename_i works
      exact withTemp_of_none (closed.resolve_left works)
  rw [seen] at dies noFolder noTable noTemp
  cases present : s.tree.access (folderOf username) with
  | false =>
      by_cases reads : TableOpens s
      · obtain ⟨s', ran, tree⟩ := noFolder present reads
        rw [refused_iff (by decide) ran, tree]
        exact Untouched.refl _
      · exact refused_of_error (dies present reads).choose_spec
  | true =>
      by_cases reads : TableOpens s
      · exact refused_of_error (noTemp present reads closed).choose_spec
      · obtain ⟨s', ran, tree⟩ := noTable present reads
        rw [refused_iff (by decide) ran, tree]
        exact Untouched.refl _

/-- Both files open and the folder is there: the copy is made. -/
theorem disconnect_untouched_copied {text : Bytes} (clean : (0 : UInt8) ∉ text)
    (short : username.length < 244) (works : s.fails 1 = false)
    (creatable : s.tree.openWrite tempTxt ≠ none) (reads : TableOpens s)
    (here : table s.tree = some text)
    (present : (withTemp s.tree).access (folderOf username) = true) :
    (∀ reply s', (disconnectServ username).run s = .ok reply s' → reply ≠ ascii "0" →
        Untouched s.tree s'.tree) ↔
      ¬ ((∀ piece ∈ pieces 256 text, ¬ username <:+: piece) ∧
        (s.fails 2 = false ∧ s.fails 3 = true ∧ text ≠ [] ∨
          ∃ content, TempHolds s.tree content ∧ ¬ (s.fails 3 = true ∧ content = text))) := by
  obtain ⟨⟨p, text'⟩, update⟩ := Option.ne_none_iff_exists'.mp reads.2
  have rooted := (openUpdate_table.mp update).1
  obtain ⟨temp, created⟩ := Option.ne_none_iff_exists'.mp creatable
  have tempFree := (creatable_some (openWrite_some created).1).2.1
  rw [openWrite_temp rooted created] at tempFree
  have calls : ∀ i < 2, s.fails i = false := by
    intro i below
    have first_two : i = 0 ∨ i = 1 := by omega
    rcases first_two with rfl | rfl
    · exact reads.1
    · exact works
  obtain ⟨s₂, ran, ends⟩ := disconnectServ_opened short calls rooted here tempFree present
  have matched := @matchesSome_of_clean username text clean
  cases found : matchesSome username text with
  | true =>
      obtain ⟨piece, member, inside⟩ := matched.mp found
      rw [found] at ran
      refine iff_of_true (fun reply s' ran' refused => ?_) fun lost => lost.1 piece member inside
      rw [ran] at ran'
      cases ran'
      exact absurd rfl refused
  | false =>
      have unmatched : ∀ piece ∈ pieces 256 text, ¬ username <:+: piece := by
        intro piece member inside
        rw [matched.mpr ⟨piece, member, inside⟩] at found
        cases found
      rw [found] at ran
      rw [kept_of_unmatched clean unmatched] at ends
      rw [refused_iff (by decide) ran, untouched_swap_iff ends here tempFree]
      exact not_congr (iff_and_self.mpr fun _ => unmatched)

theorem disconnect_untouched_iff (clean : TableClean s.tree) (short : username.length < 244) :
    (∀ reply s', (disconnectServ username).run s = .ok reply s' → reply ≠ ascii "0" →
        Untouched s.tree s'.tree) ↔
      ¬ StopsHalfway s (.disconnect username) := by
  obtain ⟨dies, noFolder, noTable, -⟩ := @disconnectServ_tests s username short
  by_cases opens : s.fails 1 = false ∧ s.tree.openWrite tempTxt ≠ none
  · obtain ⟨works, creatable⟩ := opens
    have seen : scratched s = withTemp s.tree := by rw [scratched, works, if_neg Bool.false_ne_true]
    rw [seen] at dies noFolder noTable
    have refused : ∀ {s' : Sys} {res : Bytes}, res ≠ ascii "0" →
        (disconnectServ username).run s = .ok res s' → s'.tree = withTemp s.tree →
        ((∀ reply s', (disconnectServ username).run s = .ok reply s' → reply ≠ ascii "0" →
          Untouched s.tree s'.tree) ↔ ¬ ∃ content, TempHolds s.tree content) := by
      intro s' res other ran tree
      rw [refused_iff other ran, tree, untouched_withTemp_iff creatable]
    rw [StopsHalfway, works, and_iff_right rfl, and_iff_right creatable]
    by_cases reads : TableOpens s
    · cases present : (withTemp s.tree).access (folderOf username) with
      | false =>
          obtain ⟨s', ran, tree⟩ := noFolder present reads
          rw [refused (by decide) ran tree]
          simp [reads]
      | true =>
          obtain ⟨⟨p, text⟩, update⟩ := Option.ne_none_iff_exists'.mp reads.2
          obtain ⟨-, -, here⟩ := openUpdate_table.mp update
          rw [disconnect_untouched_copied (clean text here) short works creatable reads here present]
          simp [reads, here]
    · cases present : (withTemp s.tree).access (folderOf username) with
      | false =>
          obtain ⟨s', ran⟩ := dies present reads
          exact iff_of_true (refused_of_error ran) (by simp [reads])
      | true =>
          obtain ⟨s', ran, tree⟩ := noTable present reads
          rw [refused (by decide) ran tree]
          simp [reads]
  · have closed : s.fails 1 = true ∨ s.tree.openWrite tempTxt = none := by
      rw [not_and_or, Bool.not_eq_false, not_not] at opens
      exact opens
    exact iff_of_true (disconnect_untouched_closed short closed) fun halfway =>
      opens ⟨halfway.1, halfway.2.1⟩

end Disconnect

theorem untouched_of_outcome {t t' : FileTree} {request : Request} {res : Bytes}
    (outcome : Outcome t request res t') (refused : res ≠ ascii "0")
    (notUnregister : ∀ username, request ≠ .unregister username)
    (notDisconnect : ∀ username, request ≠ .disconnect username) : Untouched t t' := by
  cases outcome with
  | unchanged _ => exact Untouched.refl _
  | registered _ => exact absurd rfl refused
  | thinned _ _ => exact absurd rfl (notUnregister _)
  | unregistered _ _ _ => exact absurd rfl refused
  | opened _ openedTable => exact untouched_opened openedTable
  | connected _ _ _ => exact absurd rfl refused
  | tried _ _ => exact absurd rfl (notDisconnect _)
  | swapped _ => exact absurd rfl (notDisconnect _)
  | published _ => exact absurd rfl refused
  | deleted _ _ => exact absurd rfl refused

/-- From every reachable store, whatever calls fail: a request stays inside its
arrays and has done nothing when it is refused, if and only if everything it
writes fits and it does not stop halfway. -/
theorem refused_untouched_iff {s : Sys} (reached : Reachable s.tree) (request : Request) :
    RefusedUntouched s request ↔ HoldsOn s request ∧ ¬ StopsHalfway s request := by
  rw [RefusedUntouched, spares_iff_holdsOn]
  refine and_congr_right fun holds => ?_
  have whole : ∀ {op : Op Bytes}, (∀ reply s', (answer op).run s = .ok reply s' →
      reply.res ≠ ascii "0" → Untouched s.tree s'.tree) ↔
      ∀ res s', op.run s = .ok res s' → res ≠ ascii "0" → Untouched s.tree s'.tree := by
    intro op
    constructor
    · intro refused res s' ran
      exact refused _ s' (run_answer_ok ran)
    · intro refused reply s' ran
      exact refused _ s' (answer_ok ran)
  have others : (∀ username, request ≠ .unregister username) →
      (∀ username, request ≠ .disconnect username) → ∀ reply s',
        (serve request).run s = .ok reply s' → reply.res ≠ ascii "0" → Untouched s.tree s'.tree :=
    fun notUnregister notDisconnect reply s' ran refused =>
      untouched_of_outcome (serve_ok ran) refused notUnregister notDisconnect
  cases request with
  | unregister username => exact whole.trans (unregister_untouched_iff holds)
  | disconnect username =>
      exact whole.trans (disconnect_untouched_iff (reachable_tableClean reached) holds)
  | register _ | connect _ _ _ | publish _ _ _ | delete _ _ | listUsers _ | listContent _ _ =>
      exact iff_of_true (others (by simp) (by simp)) id

theorem refused_untouched_ana :
    RefusedUntouched ⟨treeAfter firstStart anaAndBobPublished, [false, true], []⟩
      (.unregister (ascii "ana")) := by
  have reached : Reachable (treeAfter firstStart anaAndBobPublished) :=
    reachable_treeAfter (by decide) (by decide +kernel)
  have folder : (treeAfter firstStart anaAndBobPublished).find (folderOf (ascii "ana")) =
      some (usuarios firstStart ++ [ascii "ana"], .dir) := by decide +kernel
  have listed : regularEntries ((treeAfter firstStart anaAndBobPublished).entries
      (usuarios firstStart ++ [ascii "ana"])) =
        [(ascii "notes.txt", .file (ascii "first\n"))] := by decide +kernel
  -- of the tree only this is needed
  generalize treeAfter firstStart anaAndBobPublished = t at *
  refine (refused_untouched_iff (s := ⟨t, [false, true], []⟩) reached _).mpr
    ⟨⟨by decide, fun _ p found => ?_⟩, ?_⟩
  · rw [folder, Option.some.injEq, Prod.mk.injEq] at found
    obtain ⟨rfl, -⟩ := found
    intro gone e rest split _
    rw [listed] at split
    have member : e ∈ gone ++ e :: rest := List.mem_append_right _ List.mem_cons_self
    rw [← split, List.mem_singleton] at member
    rw [member]
    decide
  · rintro ⟨_, p, _, gone, left, _, works, _, name, content, member, _⟩
    have none_gone : gone.length = 0 := by
      by_contra some_gone
      exact Bool.noConfusion (works 0 (Nat.pos_of_ne_zero some_gone))
    rw [List.eq_nil_of_length_eq_zero none_gone] at member
    cases member

def anaAndSubfolder : List Request :=
  [.register (ascii "ana"), .register (ascii "ana/b"),
    .publish (ascii "ana") (ascii "file1") (ascii "first")]

/-- `ana` is still registered after her UNREGISTER, but her file is gone. -/
theorem unregister_stops_halfway :
    ¬ ∀ (s : Sys) (request : Request), Reachable s.tree → request.Deliverable →
      RefusedUntouched s request := by
  intro refused
  have reached : Reachable (treeAfter firstStart anaAndSubfolder) :=
    reachable_treeAfter (by decide) (by decide +kernel)
  have folder : (treeAfter firstStart anaAndSubfolder).find (folderOf (ascii "ana")) =
      some (usuarios firstStart ++ [ascii "ana"], .dir) := by decide +kernel
  have listed : regularEntries ((treeAfter firstStart anaAndSubfolder).entries
      (usuarios firstStart ++ [ascii "ana"])) =
        [(ascii "file1.txt", .file (ascii "first\n"))] ++ [] := by decide +kernel
  have inside : (treeAfter firstStart anaAndSubfolder).node
      (usuarios firstStart ++ [ascii "ana"] ++ [ascii "b"]) = some .dir := by decide +kernel
  obtain ⟨inside_arrays, untouched⟩ := refused ⟨treeAfter firstStart anaAndSubfolder, [], []⟩
    (.unregister (ascii "ana")) reached (by decide)
  refine (unregister_untouched_iff (s := ⟨_, [], []⟩) (holdsOn_of_spares inside_arrays)).mp
    (fun res s' ran => untouched _ s' (run_answer_ok ran)) ?_
  refine ⟨rfl, _, folder, _, _, listed, fun _ _ => by simp [Sys.fails],
    Or.inr ⟨rfl, Or.inl ⟨_, inside⟩⟩, ascii "file1.txt", _, List.mem_singleton.mpr rfl, ?_⟩
  exact fun _ => by decide

end DistrApp.Server
