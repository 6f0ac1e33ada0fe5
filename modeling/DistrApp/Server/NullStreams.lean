import DistrApp.Server.Arrays
import DistrApp.Server.Disconnect

/-!
# Which operations use a stream that is NULL

`connect_serv` reads the table before it tests whether the table was opened, and
`disconnect_serv` never tests temp.txt, nor the table where it closes it for a
user without a folder.  The six other operations test every `fopen` and
`opendir`, and all but one then leave a digit in `res`.
-/

set_option autoImplicit false

namespace DistrApp.Server

open Text FileTree Effects

/-- The operation uses no NULL stream, returns, and leaves a reply code. -/
def AnswersCode (s : Sys) (request : Request) : Prop :=
  (∀ s', (serve request).run s ≠ .error .nullStream s') ∧
    ∃ reply s', (serve request).run s = .ok reply s' ∧ reply.res ∈ replyCodes

/-- Every stream that the operation uses untested is open on this tree. -/
def StreamsOpen (t : FileTree) : Request → Prop
  | .connect username _ _ =>
      username.length < 244 → t.access (folderOf username) = true →
        t.node (tablePath t) ≠ some .dir
  | .disconnect username =>
      username.length < 244 →
        if (withTemp t).access (folderOf username) then
          table t = none ∨ t.node (tempPath t) ≠ some .dir
        else Rooted t ∧ table t ≠ none
  | _ => True

/-- LIST_CONTENT leaves a sentence in `res` for a folder that does not open. -/
def FolderOpens (t : FileTree) : Request → Prop
  | .listContent _ usernameFolder => t.opendir (folderOf usernameFolder) ≠ none
  | _ => True

/-! ## Operations that test what they use -/

section Tests
variable {α β : Type} {P : α → Prop} {Q : β → Prop}

def Settles (op : Op α) (P : α → Prop) : Prop :=
  Meets (fun _ => True) op (fun a _ => P a) fun e _ => e = .overflow

theorem Settles.pure {a : α} (here : P a) : Settles (pure a) P := Meets.pure fun _ _ => here

theorem Settles.bind {op : Op α} {next : α → Op β} (first : Settles op P)
    (second : ∀ a, P a → Settles (next a) Q) : Settles (op >>= next) Q :=
  Meets.bind first fun a s found => second a found s trivial

theorem Settles.ite {c : Prop} [Decidable c] {left right : Op α} (whenTrue : c → Settles left P)
    (whenFalse : ¬ c → Settles right P) : Settles (if c then left else right) P :=
  Meets.ite whenTrue whenFalse

theorem settles_sprintf (size : Nat) (text : Bytes) : Settles (sprintf size text) fun _ => True :=
  Meets.ite (fun _ => Meets.pure fun _ _ => trivial) fun _ => Meets.throw fun _ _ => rfl

theorem settles_of_returns {op : Op α} (returns : ∀ s, ∃ a s', op.run s = .ok a s') :
    Settles op fun _ => True := by
  intro s _
  obtain ⟨a, s', ran⟩ := returns s
  rw [ran]
  trivial

theorem Settles.returns {op : Op α} (settles : Settles op P) {s : Sys} (spares : Spares op s) :
    ∃ a s', op.run s = .ok a s' := by
  have ends := settles s trivial
  cases ran : op.run s with
  | ok a s' => exact ⟨a, s', rfl⟩
  | error e s' =>
      rw [ran] at ends
      obtain rfl : e = .overflow := ends
      exact absurd ran (spares s')

theorem settles_access (path : Bytes) : Settles (access path) fun _ => True :=
  settles_of_returns fun _ => ⟨_, _, rfl⟩

theorem settles_change (attempt : FileTree → Option FileTree) :
    Settles (change attempt) fun _ => True := by
  refine settles_of_returns fun s => ?_
  rw [change_run]
  split
  · exact ⟨_, _, rfl⟩
  · cases attempt s.tree <;> exact ⟨_, _, rfl⟩

theorem settles_fopen (path : Bytes) (mode : Mode) : Settles (fopen path mode) fun _ => True := by
  refine settles_of_returns fun s => ?_
  rw [fopen_run]
  split
  · exact ⟨_, _, rfl⟩
  · cases openFile s.tree path mode <;> exact ⟨_, _, rfl⟩

theorem settles_opendir (path : Bytes) : Settles (opendir path) fun _ => True := by
  refine settles_of_returns fun s => ?_
  rw [opendir_run]
  split
  · exact ⟨_, _, rfl⟩
  · cases s.tree.opendir path <;> exact ⟨_, _, rfl⟩

theorem settles_closeHandle (id : Nat) : Settles (closeHandle id) fun _ => True :=
  settles_of_returns fun _ => ⟨_, _, rfl⟩

theorem settles_findWord (size : Nat) (username : Bytes) (seen : List Bytes) :
    Settles (findWord size username seen) fun _ => True := by
  rw [findWord]
  cases scanWords size username seen with
  | none => exact Meets.throw fun _ _ => rfl
  | some found => exact Settles.pure trivial

theorem settles_fputs (text : Bytes) (f : Stream) :
    Settles (fputs text (some f)) fun _ => True :=
  settles_of_returns fun _ => ⟨_, _, rfl⟩

end Tests

section Operations
variable (username : Bytes)

theorem settles_registerServ : Settles (registerServ username) (· ∈ replyCodes) := by
  refine Settles.ite (fun _ => Settles.pure (by decide)) fun _ => ?_
  refine (settles_sprintf _ _).bind fun foldername _ => (settles_access _).bind fun there _ => ?_
  refine Settles.ite (fun _ => Settles.pure (by decide)) fun _ => ?_
  refine (settles_change _).bind fun made _ => ?_
  exact Settles.ite (fun _ => Settles.pure (by decide)) fun _ => Settles.pure (by decide)

theorem settles_removeFiles (foldername : Bytes) (listed : List (Name × Node)) :
    Settles (removeFiles foldername listed) fun _ => True := by
  induction listed with
  | nil => exact Settles.pure trivial
  | cons entry rest ih =>
      obtain ⟨dName, n⟩ := entry
      cases n with
      | dir => exact ih
      | file content =>
          refine (settles_sprintf _ _).bind fun filepath _ => (settles_change _).bind fun gone _ => ?_
          exact Settles.ite (fun _ => ih) fun _ => Settles.pure trivial

theorem settles_unregisterServ : Settles (unregisterServ username) (· ∈ replyCodes) := by
  refine (settles_sprintf _ _).bind fun foldername _ => (settles_access _).bind fun there _ => ?_
  refine Settles.ite (fun _ => Settles.pure (by decide)) fun _ => ?_
  refine (settles_opendir _).bind fun dir _ => ?_
  cases dir with
  | none => exact Settles.pure (by decide)
  | some dir =>
      refine (settles_removeFiles _ _).bind fun emptied _ => ?_
      refine Settles.ite (fun _ => (settles_closeHandle _).bind fun _ _ => Settles.pure (by decide))
        fun _ => (settles_closeHandle _).bind fun _ _ => (settles_change _).bind fun gone _ => ?_
      exact Settles.ite (fun _ => Settles.pure (by decide)) fun _ => Settles.pure (by decide)

theorem settles_publishServ (fileName description : Bytes) :
    Settles (publishServ username fileName description) (· ∈ replyCodes) := by
  refine (settles_sprintf _ _).bind fun foldername _ => (settles_sprintf _ _).bind fun checkfile _ =>
    (settles_access _).bind fun there _ => Settles.ite (fun _ => Settles.pure (by decide)) fun _ => ?_
  refine (settles_access _).bind fun exists_ _ =>
    Settles.ite (fun _ => Settles.pure (by decide)) fun _ => (settles_fopen _ _).bind fun stream _ => ?_
  cases stream with
  | none => exact Settles.pure (by decide)
  | some f =>
      refine (settles_findWord _ _ _).bind fun found _ => ?_
      have rest : Settles (do
          if fileName = ascii "notfound" then
            return ascii "4"
          let filepath ← sprintf 256 (fileOf foldername fileName)
          let file ← fopen filepath .write
          if file.isNone then
            return ascii "4"
          fputs (description ++ [newline]) file
          fclose file
          return ascii "0") (· ∈ replyCodes) := by
        refine Settles.ite (fun _ => Settles.pure (by decide)) fun _ =>
          (settles_sprintf _ _).bind fun filepath _ => (settles_fopen _ _).bind fun file _ => ?_
        cases file with
        | none => exact Settles.pure (by decide)
        | some file =>
            exact (settles_fputs _ _).bind fun _ _ => (settles_closeHandle _).bind fun _ _ =>
              Settles.pure (by decide)
      exact Settles.ite (fun _ => (settles_closeHandle _).bind fun _ _ => rest) fun _ => rest

theorem settles_deleteServ (fileName : Bytes) :
    Settles (deleteServ username fileName) (· ∈ replyCodes) := by
  refine Settles.ite (fun _ => Settles.pure (by decide)) fun _ => ?_
  refine (settles_sprintf _ _).bind fun foldername _ => (settles_access _).bind fun there _ =>
    Settles.ite (fun _ => Settles.pure (by decide)) fun _ => (settles_fopen _ _).bind fun stream _ => ?_
  refine Settles.ite (fun _ => Settles.pure (by decide)) fun _ =>
    (settles_sprintf _ _).bind fun filepath _ => (settles_change _).bind fun gone _ => ?_
  exact Settles.ite (fun _ => Settles.pure (by decide)) fun _ => Settles.pure (by decide)

theorem settles_listUsersServ :
    Settles (listUsersServ username) fun reply => reply.1 ∈ replyCodes := by
  refine Settles.ite (fun _ => Settles.pure (by decide)) fun _ => ?_
  refine (settles_sprintf _ _).bind fun foldername _ => (settles_access _).bind fun there _ =>
    Settles.ite (fun _ => Settles.pure (by decide)) fun _ => (settles_fopen _ _).bind fun stream _ => ?_
  cases stream with
  | none => exact Settles.pure (by decide)
  | some f =>
      exact (settles_closeHandle f.id).bind fun _ _ =>
        Settles.pure (show ascii "0" ∈ replyCodes by decide)

theorem settles_listContentServ (usernameFolder : Bytes) :
    Settles (listContentServ username usernameFolder) fun _ => True := by
  refine (settles_sprintf _ _).bind fun foldername _ => (settles_opendir _).bind fun dir _ => ?_
  cases dir with
  | none => exact Settles.pure trivial
  | some dir =>
      exact (settles_closeHandle _).bind fun _ _ => (settles_sprintf _ _).bind fun resUsername _ =>
        Settles.pure trivial

theorem settles_answer {op : Op Bytes} (answers : Settles op (· ∈ replyCodes)) :
    Settles (answer op) fun reply => reply.res ∈ replyCodes :=
  answers.bind fun _ code => Settles.pure code

end Operations

/-! ## The two operations that do not -/

section Untested
variable {s : Sys} {username : Bytes}

/-- The operation meets NULL if and only if not everything it needs is open; it
ends no other way but by returning or in an overrun. -/
def NeedsOpen {α : Type} (allOpen : Prop) (op : Op α) (s : Sys) : Prop :=
  match op.run s with
  | .ok _ _ => allOpen
  | .error .overflow _ => allOpen
  | .error .nullStream _ => ¬ allOpen
  | .error .overread _ => False

theorem needsOpen_of_answers {α : Type} {op : Op α} {P : α → Prop} (answers : Settles op P) :
    NeedsOpen True op s := by
  have ends := answers s trivial
  rw [NeedsOpen]
  cases ran : op.run s with
  | ok a s' => trivial
  | error e s' =>
      rw [ran] at ends
      obtain rfl : e = .overflow := ends
      trivial

section Ends
variable {α : Type} {allOpen : Prop} {op : Op α} {s' : Sys}

theorem needsOpen_ok {a : α} (ran : op.run s = .ok a s') : NeedsOpen allOpen op s ↔ allOpen := by
  rw [NeedsOpen, ran]

theorem needsOpen_overflow (ran : op.run s = .error .overflow s') :
    NeedsOpen allOpen op s ↔ allOpen := by
  rw [NeedsOpen, ran]

theorem needsOpen_null (ran : op.run s = .error .nullStream s') :
    NeedsOpen allOpen op s ↔ ¬ allOpen := by
  rw [NeedsOpen, ran]

end Ends

theorem needsOpen_answer {allOpen : Prop} {op : Op Bytes} (needs : NeedsOpen allOpen op s) :
    NeedsOpen allOpen (answer op) s := by
  rw [NeedsOpen] at needs ⊢
  rw [Server.answer, EStateM.run_bind]
  cases ran : op.run s with
  | ok res s' => rwa [ran] at needs
  | error e s' =>
      rw [ran] at needs
      cases e <;> exact needs

theorem usuarios_of_access {t : FileTree} {rest : Bytes}
    (there : t.access (folderOf rest) = true) : t.node (usuarios t) = some .dir := by
  obtain ⟨⟨p, n⟩, found⟩ := Option.isSome_iff_exists.mp there
  obtain ⟨resolved, here⟩ := find_node found
  rw [resolve_folderOf, if_pos (rooted_of_access there)] at resolved
  cases walked : components rest with
  | nil =>
      -- the path ends in the slash after `usuarios`, or in one of `rest`
      have ends : (folderOf rest).getLast? = some slash := by
        have slashes := eq_slash_of_components walked
        rcases List.eq_nil_or_concat rest with rfl | ⟨init, last, rfl⟩
        · decide
        · rw [List.concat_eq_append] at slashes ⊢
          rw [folderOf, ← List.append_assoc, List.getLast?_concat, slashes last (by simp)]
      rw [walked, walk, Option.some.injEq] at resolved
      rw [FileTree.find, resolve_folderOf, if_pos (rooted_of_access there), walked, walk, resolved,
        Option.bind_some, here, Option.bind_some] at found
      split at found
      · cases found
      · rename_i plain
        rw [resolved, here]
        exact congrArg some (not_not.mp fun file => plain ⟨ends, file⟩)
  | cons c cs =>
      rw [walked, walk] at resolved
      split at resolved
      · assumption
      · cases resolved

theorem openAppend_none_iff {t : FileTree} (there : t.access (folderOf username) = true) :
    t.openAppend conectadosTxt = none ↔ t.node (tablePath t) = some .dir := by
  rw [openAppend, creatable_table (rooted_of_access there), Option.map_eq_none_iff]
  simp [usuarios_of_access there]

theorem rooted_of_withTemp {t : FileTree} (there : (withTemp t).access (folderOf username) = true) :
    Rooted t := by
  cases created : t.openWrite tempTxt with
  | none =>
      rw [withTemp_of_none created] at there
      exact rooted_of_access there
  | some opened => exact rooted_of_resolve (creatable_some (openWrite_some created).1).1

theorem connect_needsOpen (calm : s.faults = []) {freePort freeServer : Bytes} :
    NeedsOpen (StreamsOpen s.tree (.connect username freePort freeServer))
      (connectServ username freePort freeServer) s := by
  rw [NeedsOpen, run_connectServ calm, StreamsOpen]
  by_cases long : 244 ≤ username.length
  · simp [long, not_lt.mpr long]
  · cases there : s.tree.access (folderOf username) with
    | false => simp [long]
    | true =>
        have dir : s.tree.node (tablePath s.tree) ≠ some .dir ↔
            s.tree.openAppend conectadosTxt ≠ none := (openAppend_none_iff there).symm.not
        rw [if_neg long, dir]
        cases opened : s.tree.openAppend conectadosTxt with
        | none => simpa using not_le.mp long
        | some file =>
            obtain ⟨path, text, tree⟩ := file
            simp only
            cases scanWords 256 username (words text) with
            | none => simp
            | some found => cases found <;> simp

theorem disconnect_needsOpen (calm : s.faults = []) :
    NeedsOpen (StreamsOpen s.tree (.disconnect username)) (disconnectServ username) s := by
  by_cases long : 244 ≤ username.length
  · obtain ⟨s', ran⟩ := run_disconnectServ_long calm long
    rw [needsOpen_overflow ran, StreamsOpen]
    exact fun short => absurd short (not_lt.mpr long)
  · have short := not_le.mp long
    rw [StreamsOpen, imp_iff_right short]
    by_cases present : (withTemp s.tree).access (folderOf username) = true
    · have rooted := rooted_of_withTemp present
      rw [if_pos present]
      cases update : s.tree.openUpdate conectadosTxt with
      | none =>
          obtain ⟨handles, ran⟩ := run_disconnectServ_noTable calm short present update
          rw [needsOpen_ok ran]
          left
          rw [Option.eq_none_iff_forall_ne_some]
          intro text here
          rw [openUpdate_table.mpr ⟨rooted, rfl, here⟩] at update
          cases update
      | some opened =>
          obtain ⟨p, text⟩ := opened
          obtain ⟨-, -, here⟩ := openUpdate_table.mp update
          rw [here, or_iff_right (Option.some_ne_none _)]
          by_cases dir : s.tree.node (tempPath s.tree) = some .dir
          · have closed := openWrite_temp_none rooted dir
            rw [withTemp_of_none closed] at present
            obtain ⟨s', ran⟩ := run_disconnectServ_noTemp calm short present update closed
            rw [needsOpen_null ran]
            exact not_not.mpr dir
          · obtain ⟨t₁, created⟩ :=
              openWrite_temp_exists rooted (usuarios_isDir (table_eq_some.mp here)) dir
            obtain ⟨t', handles, ran, -⟩ := run_disconnectServ calm short present update created
            rwa [needsOpen_ok ran]
    · rw [if_neg present]
      rw [Bool.not_eq_true] at present
      obtain ⟨fails, closes⟩ := run_disconnectServ_absent calm short present
      cases update : s.tree.openUpdate conectadosTxt with
      | none =>
          obtain ⟨s', ran⟩ := fails update
          rw [needsOpen_null ran]
          rintro ⟨rooted, there⟩
          obtain ⟨text, here⟩ := Option.ne_none_iff_exists'.mp there
          rw [openUpdate_table.mpr ⟨rooted, rfl, here⟩] at update
          cases update
      | some opened =>
          obtain ⟨handles, ran⟩ := closes opened update
          obtain ⟨rooted, -, here⟩ := openUpdate_table.mp update
          rw [needsOpen_ok ran, here]
          exact ⟨rooted, Option.some_ne_none _⟩

theorem connect_code {freePort freeServer reply : Bytes} {s' : Sys}
    (ran : (connectServ username freePort freeServer).run s = .ok reply s') :
    reply ∈ replyCodes := by
  rcases connectServ_ok ran with ⟨rfl, -⟩ | ⟨-, file, text, tree, -, ⟨rfl, -⟩ | ⟨rfl, -, -⟩⟩
  all_goals decide

theorem disconnect_code {reply : Bytes} {s' : Sys}
    (ran : (disconnectServ username).run s = .ok reply s') : reply ∈ replyCodes := by
  rcases disconnectServ_ok ran with ⟨rfl | rfl, -⟩ | ⟨text, rfl, -⟩
  · decide
  · decide
  · split <;> decide

end Untested

/-! ## All operations -/

section Requests
variable {s : Sys}

theorem serve_needsOpen (calm : s.faults = []) (request : Request) :
    NeedsOpen (StreamsOpen s.tree request) (serve request) s := by
  cases request with
  | register username =>
      exact needsOpen_of_answers (settles_answer (settles_registerServ username))
  | unregister username =>
      exact needsOpen_of_answers (settles_answer (settles_unregisterServ username))
  | connect username freePort freeServer => exact needsOpen_answer (connect_needsOpen calm)
  | disconnect username => exact needsOpen_answer (disconnect_needsOpen calm)
  | publish username fileName description =>
      exact needsOpen_of_answers (settles_answer (settles_publishServ username fileName description))
  | delete username fileName =>
      exact needsOpen_of_answers (settles_answer (settles_deleteServ username fileName))
  | listUsers username =>
      exact needsOpen_of_answers ((settles_listUsersServ username).bind fun _ code =>
        Settles.pure (P := fun reply : Reply => reply.res ∈ replyCodes) code)
  | listContent username usernameFolder =>
      exact needsOpen_of_answers ((settles_listContentServ username usernameFolder).bind fun _ _ =>
        Settles.pure (P := fun _ => True) trivial)

/-- The operations that test every stream before they use it. -/
def Request.Tested : Request → Prop
  | .connect _ _ _ => False
  | .disconnect _ => False
  | _ => True

theorem serve_returns {request : Request} (holds : HoldsOn s request) (tested : request.Tested) :
    ∃ reply s', (serve request).run s = .ok reply s' := by
  have spares := spares_of_holdsOn holds
  cases request with
  | register username => exact (settles_answer (settles_registerServ username)).returns spares
  | unregister username => exact (settles_answer (settles_unregisterServ username)).returns spares
  | connect _ _ _ | disconnect _ => exact tested.elim
  | publish username fileName description =>
      exact (settles_answer (settles_publishServ username fileName description)).returns spares
  | delete username fileName =>
      exact (settles_answer (settles_deleteServ username fileName)).returns spares
  | listUsers username =>
      exact ((settles_listUsersServ username).bind fun _ _ =>
        Settles.pure (P := fun _ => True) trivial).returns spares
  | listContent username usernameFolder =>
      exact ((settles_listContentServ username usernameFolder).bind fun _ _ =>
        Settles.pure (P := fun _ => True) trivial).returns spares

/-- When no call fails by itself, NULL is used if and only if the tree keeps a
stream closed that the operation does not test. -/
theorem nullStream_iff (calm : s.faults = []) (request : Request) :
    (∃ s', (serve request).run s = .error .nullStream s') ↔ ¬ StreamsOpen s.tree request := by
  have needs := serve_needsOpen calm request
  rw [NeedsOpen] at needs
  cases ran : (serve request).run s with
  | ok reply s' =>
      rw [ran] at needs
      simpa using needs
  | error e s' =>
      rw [ran] at needs
      cases e with
      | overflow => simpa using needs
      | nullStream => simpa using needs
      | overread => exact needs.elim

theorem Settles.returned {α : Type} {op : Op α} {P : α → Prop} (answers : Settles op P) {a : α}
    {s' : Sys} (ran : op.run s = .ok a s') : P a :=
  Meets.returned answers trivial ran

theorem serve_code (calm : s.faults = []) {request : Request} {reply : Reply} {s' : Sys}
    (ran : (serve request).run s = .ok reply s') :
    reply.res ∈ replyCodes ↔ FolderOpens s.tree request := by
  cases request with
  | register username =>
      exact iff_of_true ((settles_registerServ username).returned (answer_ok ran)) trivial
  | unregister username =>
      exact iff_of_true ((settles_unregisterServ username).returned (answer_ok ran)) trivial
  | connect username freePort freeServer =>
      exact iff_of_true (connect_code (answer_ok ran)) trivial
  | disconnect username => exact iff_of_true (disconnect_code (answer_ok ran)) trivial
  | publish username fileName description =>
      exact iff_of_true
        ((settles_publishServ username fileName description).returned (answer_ok ran)) trivial
  | delete username fileName =>
      exact iff_of_true ((settles_deleteServ username fileName).returned (answer_ok ran)) trivial
  | listUsers username =>
      obtain ⟨⟨res, res2⟩, middle, ran, rest⟩ := bind_ok.mp ran
      obtain ⟨rfl, rfl⟩ := pure_ok.mp rest
      exact iff_of_true ((settles_listUsersServ username).returned ran) trivial
  | listContent username usernameFolder =>
      obtain ⟨⟨res, res2, resUsername⟩, middle, ran, rest⟩ := bind_ok.mp ran
      obtain ⟨rfl, rfl⟩ := pure_ok.mp rest
      rw [run_listContentServ calm] at ran
      rw [FolderOpens]
      split at ran
      · cases ran
      · cases opened : s.tree.opendir (folderOf usernameFolder) with
        | none =>
            rw [opened] at ran
            cases ran
            exact iff_of_false (by decide) (not_not.mpr rfl)
        | some entries =>
            rw [opened] at ran
            cases ran
            exact iff_of_true (show ascii "0" ∈ replyCodes by decide) (Option.some_ne_none _)

/-- When no call fails by itself, an operation uses no NULL stream and returns a
reply code if and only if its arrays suffice, the streams it does not test are
open, and the folder that LIST_CONTENT lists opens. -/
theorem answersCode_iff (calm : s.faults = []) (request : Request) :
    AnswersCode s request ↔
      ArraysHold s.tree request ∧ StreamsOpen s.tree request ∧ FolderOpens s.tree request := by
  have needs := serve_needsOpen calm request
  cases ran : (serve request).run s with
  | ok reply s' =>
      have holds : ArraysHold s.tree request := serve_overruns calm fun s'' overruns => by
        rw [ran] at overruns
        cases overruns
      rw [needsOpen_ok ran] at needs
      rw [← serve_code calm ran, AnswersCode, ran]
      simp [holds, needs]
  | error e s' =>
      refine iff_of_false ?_ ?_
      · rintro ⟨-, reply, s'', returned, -⟩
        rw [ran] at returned
        cases returned
      · rintro ⟨holds, opens, -⟩
        cases e with
        | overflow => exact spares_serve holds s' ran
        | nullStream => exact (needsOpen_null ran).mp needs opens
        | overread =>
            rw [NeedsOpen, ran] at needs
            exact needs

end Requests

theorem answersCode_ana :
    AnswersCode ⟨treeAfter firstStart anaConnected, [], []⟩ (.disconnect (ascii "ana")) := by
  have present : (withTemp (treeAfter firstStart anaConnected)).access (folderOf (ascii "ana")) =
      true := by decide +kernel
  refine (answersCode_iff rfl _).mpr ⟨by show _ < 244; decide, fun _ => ?_, trivial⟩
  rw [if_pos present]
  exact Or.inr (by decide +kernel)

/-- REGISTER makes a folder of the name `temp.txt`, and then `fopen` cannot make
the file; `disconnect_serv` closes the NULL it got. -/
theorem disconnect_closes_null :
    ¬ ∀ (t : FileTree) (request : Request) (s : Sys), Reachable t → request.Deliverable →
      s.tree = t → s.faults = [] → AnswersCode s request := by
  intro always
  have reached := @reachable_treeAfter [.register (ascii "temp.txt")] (by decide) (by decide)
  have never := (always _ (.disconnect (ascii "temp.txt"))
    ⟨treeAfter firstStart [.register (ascii "temp.txt")], [], []⟩ reached (by decide) rfl rfl).1
  have null : (match (serve (.disconnect (ascii "temp.txt"))).run
        ⟨treeAfter firstStart [.register (ascii "temp.txt")], [], []⟩ with
      | .error .nullStream _ => true
      | _ => false) = true := by decide +kernel
  split at null
  · rename_i s' ran
    exact never s' ran
  · cases null

end DistrApp.Server
