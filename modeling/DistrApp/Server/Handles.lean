import DistrApp.Server.Serve

/-!
# Which operations close what they open

`publish_serv` closes the table inside its search loop, and so not at all for a
user it does not find; `delete_serv` never closes it, and `disconnect_serv`
forgets temp.txt where it returns early.  `stillOpen` replays the log of handles,
and `Releases` says which requests leave nothing behind.
-/

set_option autoImplicit false

namespace DistrApp.Server

open Text FileTree Effects

/-! ## Replaying the log -/

/-- The open handles after these events; closing one that is not open is an error. -/
def stillOpen (held : List Nat) : List HandleEvent → Option (List Nat)
  | [] => some held
  | .opened id :: rest => stillOpen (id :: held) rest
  | .closed id :: rest => if id ∈ held then stillOpen (held.erase id) rest else none

theorem stillOpen_append (left right : List HandleEvent) (held : List Nat) :
    stillOpen held (left ++ right) = (stillOpen held left).bind fun now => stillOpen now right := by
  induction left generalizing held with
  | nil => rfl
  | cons event left ih =>
      cases event with
      | opened id => exact ih _
      | closed id =>
          simp only [List.cons_append, stillOpen]
          split
          · exact ih _
          · rfl

theorem stillOpen_frame {events : List HandleEvent} (others : List Nat) :
    ∀ {held now : List Nat}, stillOpen held events = some now →
      stillOpen (held ++ others) events = some (now ++ others) := by
  induction events with
  | nil =>
      intro held now replayed
      rw [stillOpen, Option.some.injEq] at replayed
      rw [stillOpen, replayed]
  | cons event rest ih =>
      intro held now replayed
      cases event with
      | opened id => exact ih replayed
      | closed id =>
          rw [stillOpen] at replayed ⊢
          split at replayed
          · rename_i open_
            rw [if_pos (List.mem_append_left _ open_), List.erase_append_left _ open_]
            exact ih replayed
          · cases replayed

/-- The events added to a log close what they open, once each, and nothing else. -/
def Closes (h h' : List HandleEvent) : Prop :=
  ∃ events, h' = h ++ events ∧ stillOpen [] events = some []

theorem Closes.refl (h : List HandleEvent) : Closes h h := ⟨[], by simp, rfl⟩

theorem Closes.stillOpen {h h' : List HandleEvent} (closes : Closes h h') (held : List Nat) :
    stillOpen held h' = stillOpen held h := by
  obtain ⟨events, rfl, replayed⟩ := closes
  rw [stillOpen_append]
  cases Server.stillOpen held h with
  | none => rfl
  | some now => exact stillOpen_frame now replayed

theorem closes_pair (h : List HandleEvent) (id : Nat) :
    Closes h (h ++ [.opened id] ++ [.closed id]) := by
  refine ⟨[.opened id, .closed id], by simp, ?_⟩
  simp [Server.stillOpen]

theorem not_closes_of_left {h h' : List HandleEvent} {id : Nat}
    (later : Closes (h ++ [.opened id]) h') : ¬ Closes h h' := by
  rintro ⟨events, same, replayed⟩
  obtain ⟨rest, shape, closed⟩ := later
  rw [shape, List.append_assoc, List.append_cancel_left_eq] at same
  rw [← same, stillOpen_append, Server.stillOpen, Server.stillOpen, Option.bind_some,
    ← List.nil_append [id], stillOpen_frame [id] closed] at replayed
  cases replayed

/-! ## Composing -/

section Logs
variable {α β : Type} {h : List HandleEvent} {Q : α → List HandleEvent → Prop}
  {R : β → List HandleEvent → Prop}

def Logs (h : List HandleEvent) (op : Op α) (Q : α → List HandleEvent → Prop) : Prop :=
  Meets (fun s => s.handles = h) op (fun a s' => Q a s'.handles) fun _ _ => True

theorem Logs.pure {a : α} (here : Q a h) : Logs h (pure a) Q :=
  Meets.pure fun s same => by rw [same]; exact here

theorem Logs.throw (e : Undefined) : Logs h (throw e : Op α) Q := Meets.throw fun _ _ => trivial

theorem logs_stops (e : Undefined) {next : α → Op β} : Logs h (throw e >>= next) R :=
  fun _ _ => trivial

theorem Logs.bind {op : Op α} {next : α → Op β} (first : Logs h op Q)
    (second : ∀ a h', Q a h' → Logs h' (next a) R) : Logs h (op >>= next) R :=
  Meets.bind first fun a s found => second a s.handles found s rfl

theorem Logs.ite {c : Prop} [Decidable c] {left right : Op α} (whenTrue : c → Logs h left Q)
    (whenFalse : ¬ c → Logs h right Q) : Logs h (if c then left else right) Q :=
  Meets.ite whenTrue whenFalse

theorem Logs.returned {op : Op α} {s s' : Sys} {a : α} (logs : Logs s.handles op Q)
    (ran : op.run s = .ok a s') : Q a s'.handles :=
  Meets.returned logs rfl ran

def Silent (op : Op α) : Prop := ∀ h, Logs h op fun _ h' => h' = h

theorem Silent.then {op : Op α} {next : α → Op β} (silent : Silent op)
    (second : ∀ a, Logs h (next a) R) : Logs h (op >>= next) R :=
  (silent h).bind fun a h' same => by rw [same]; exact second a

theorem silent_sprintf (size : Nat) (text : Bytes) : Silent (sprintf size text) := fun _ =>
  Logs.ite (fun _ => Logs.pure rfl) fun _ => Logs.throw _

theorem silent_access (path : Bytes) : Silent (access path) := fun _ _ same => same

theorem silent_change (attempt : FileTree → Option FileTree) : Silent (change attempt) := by
  intro h s same
  have kept : ∃ done s', (change attempt).run s = .ok done s' ∧ s'.handles = s.handles := by
    rw [change_run]
    split
    · exact ⟨_, _, rfl, rfl⟩
    · cases attempt s.tree <;> exact ⟨_, _, rfl, rfl⟩
  obtain ⟨done, s', ran, unlogged⟩ := kept
  rw [ran]
  exact unlogged.trans same

theorem silent_findWord (size : Nat) (username : Bytes) (seen : List Bytes) :
    Silent (findWord size username seen) := by
  intro h
  rw [findWord]
  cases scanWords size username seen with
  | none => exact Logs.throw _
  | some found => exact Logs.pure rfl

theorem silent_unread (stream : Option Stream) : Silent (unread stream) := by
  intro h
  cases stream with
  | none => exact Logs.throw _
  | some f => exact Logs.pure rfl

theorem silent_fputs (text : Bytes) (stream : Option Stream) : Silent (fputs text stream) := by
  intro h
  cases stream with
  | none => exact Logs.throw _
  | some f => exact fun s same => same

theorem logs_closeHandle (id : Nat) :
    Logs h (closeHandle id) fun _ h' => h' = h ++ [.closed id] := fun s same => by
  rw [← same]
  rfl

theorem logs_fopen (path : Bytes) (mode : Mode) :
    Logs h (fopen path mode) fun stream h' =>
      stream = none ∧ h' = h ∨
        ∃ f, stream = some f ∧ f.id = h.length ∧ h' = h ++ [.opened h.length] := by
  rintro s rfl
  rw [fopen_run]
  by_cases fault : s.faults.headD false = true
  · rw [if_pos fault]
    exact Or.inl ⟨rfl, rfl⟩
  · rw [if_neg fault]
    cases openFile s.tree path mode with
    | none => exact Or.inl ⟨rfl, rfl⟩
    | some file => exact Or.inr ⟨_, rfl, rfl, rfl⟩

theorem logs_opendir (path : Bytes) :
    Logs h (opendir path) fun dir h' =>
      dir = none ∧ h' = h ∨
        ∃ d, dir = some d ∧ d.id = h.length ∧ h' = h ++ [.opened h.length] := by
  rintro s rfl
  rw [opendir_run]
  by_cases fault : s.faults.headD false = true
  · rw [if_pos fault]
    exact Or.inl ⟨rfl, rfl⟩
  · rw [if_neg fault]
    cases s.tree.opendir path with
    | none => exact Or.inl ⟨rfl, rfl⟩
    | some entries => exact Or.inr ⟨_, rfl, rfl, rfl⟩

end Logs

/-! ## Operations that close what they open -/

section Balanced
variable (username : Bytes) (h : List HandleEvent)

theorem logs_registerServ : Logs h (registerServ username) fun _ => Closes h := by
  refine Logs.ite (fun _ => Logs.pure (Closes.refl h)) fun _ => ?_
  refine (silent_sprintf _ _).then fun foldername => (silent_access _).then fun there => ?_
  refine Logs.ite (fun _ => Logs.pure (Closes.refl h)) fun _ => (silent_change _).then fun made => ?_
  exact Logs.ite (fun _ => Logs.pure (Closes.refl h)) fun _ => Logs.pure (Closes.refl h)

theorem silent_removeFiles (foldername : Bytes) (listed : List (Name × Node)) :
    Silent (removeFiles foldername listed) := by
  intro h
  induction listed with
  | nil => exact Logs.pure rfl
  | cons entry rest ih =>
      obtain ⟨dName, n⟩ := entry
      cases n with
      | dir => exact ih
      | file content =>
          refine (silent_sprintf _ _).then fun filepath => (silent_change _).then fun gone => ?_
          exact Logs.ite (fun _ => ih) fun _ => Logs.pure rfl

theorem logs_unregisterServ : Logs h (unregisterServ username) fun _ => Closes h := by
  refine (silent_sprintf _ _).then fun foldername => (silent_access _).then fun there => ?_
  refine Logs.ite (fun _ => Logs.pure (Closes.refl h)) fun _ => ?_
  refine (logs_opendir _).bind fun dir h₁ opened => ?_
  rcases opened with ⟨rfl, rfl⟩ | ⟨d, rfl, named, rfl⟩
  · exact Logs.pure (Closes.refl h₁)
  · have closes : Closes h (h ++ [.opened h.length] ++ [.closed d.id]) := by
      rw [named]
      exact closes_pair h h.length
    refine (silent_removeFiles _ _).then fun emptied => Logs.ite (fun _ => ?_) fun _ => ?_
    · refine (logs_closeHandle d.id).bind fun _ h₂ closed => ?_
      rw [closed]
      exact Logs.pure closes
    · refine (logs_closeHandle d.id).bind fun _ h₂ closed => ?_
      rw [closed]
      refine (silent_change _).then fun gone => ?_
      exact Logs.ite (fun _ => Logs.pure closes) fun _ => Logs.pure closes

theorem logs_fclose_last {h : List HandleEvent} {f : Stream} (named : f.id = h.length)
    {β : Type} {next : Unit → Op β} {R : β → List HandleEvent → Prop}
    (rest : Logs (h ++ [.opened h.length] ++ [.closed h.length]) (next ()) R) :
    Logs (h ++ [.opened h.length]) (fclose (some f) >>= next) R := by
  refine (logs_closeHandle f.id).bind fun _ h' closed => ?_
  rw [closed, named]
  exact rest

theorem logs_connectServ (freePort freeServer : Bytes) :
    Logs h (connectServ username freePort freeServer) fun _ => Closes h := by
  refine (silent_sprintf _ _).then fun foldername => (silent_access _).then fun there => ?_
  refine Logs.ite (fun _ => Logs.pure (Closes.refl h)) fun _ => ?_
  refine (logs_fopen _ _).bind fun stream h₁ opened => ?_
  refine (silent_unread _).then fun text => (silent_findWord _ _ _).then fun found => ?_
  rcases opened with ⟨rfl, rfl⟩ | ⟨f, rfl, named, rfl⟩
  · exact Logs.ite (fun _ => logs_stops _) fun _ => Logs.pure (Closes.refl h₁)
  · refine Logs.ite (fun _ => ?_) fun _ => ?_
    · exact logs_fclose_last named (Logs.pure (closes_pair h _))
    · exact (silent_fputs _ _).then fun _ => logs_fclose_last named (Logs.pure (closes_pair h _))

theorem logs_listUsersServ : Logs h (listUsersServ username) fun _ => Closes h := by
  refine Logs.ite (fun _ => Logs.pure (Closes.refl h)) fun _ => ?_
  refine (silent_sprintf _ _).then fun foldername => (silent_access _).then fun there => ?_
  refine Logs.ite (fun _ => Logs.pure (Closes.refl h)) fun _ => ?_
  refine (logs_fopen _ _).bind fun stream h₁ opened => ?_
  rcases opened with ⟨rfl, rfl⟩ | ⟨f, rfl, named, rfl⟩
  · exact Logs.pure (Closes.refl h₁)
  · exact (silent_unread _).then fun text => logs_fclose_last named (Logs.pure (closes_pair h _))

theorem logs_listContentServ (usernameFolder : Bytes) :
    Logs h (listContentServ username usernameFolder) fun _ => Closes h := by
  refine (silent_sprintf _ _).then fun foldername => ?_
  refine (logs_opendir _).bind fun dir h₁ opened => ?_
  rcases opened with ⟨rfl, rfl⟩ | ⟨d, rfl, named, rfl⟩
  · exact Logs.pure (Closes.refl h₁)
  · refine (logs_closeHandle d.id).bind fun _ h₂ closed => ?_
    rw [closed, named]
    exact (silent_sprintf _ _).then fun resUsername => Logs.pure (closes_pair h _)

end Balanced

/-! ## Operations that may not -/

def opens (s : Sys) (path : Bytes) (mode : Mode) : Option (Path × Bytes × FileTree) :=
  if s.fails 0 then none else openFile s.tree path mode

theorem fopen_then {s s' : Sys} {path : Bytes} {mode : Mode} {β : Type} {b : β}
    {next : Option Stream → Op β} (ran : (fopen path mode >>= next).run s = .ok b s') :
    opens s path mode = none ∧ (next none).run s.afterFault = .ok b s' ∨
      ∃ file, opens s path mode = some file ∧
        (next (some ⟨s.handles.length, file.1, file.2.1⟩)).run
          { s.afterFault with
            tree := file.2.2, handles := s.handles ++ [.opened s.handles.length] } = .ok b s' := by
  rw [EStateM.run_bind, fopen_run, headD_faults] at ran
  rw [opens]
  split at ran
  · rename_i b' s₁ opened
    split at opened
    · cases opened
      exact Or.inl ⟨if_pos ‹_›, ran⟩
    · rename_i steady
      rw [if_neg steady]
      split at opened
      · rename_i closed
        cases opened
        exact Or.inl ⟨closed, ran⟩
      · rename_i file text tree here
        cases opened
        exact Or.inr ⟨_, here, ran⟩
  · cases ran

/-- Whether the request leaves no handle open, if it is served to its end. -/
def Releases (s : Sys) : Request → Prop
  | .disconnect username =>
      s.fails 1 = false → s.tree.openWrite tempTxt ≠ none →
        (withTemp s.tree).access (folderOf username) = true ∧ opens s conectadosTxt .update ≠ none
  | .publish username fileName _ =>
      s.tree.access (folderOf username) = true →
        s.tree.access (fileOf (folderOf username) fileName) = false →
        ∀ file, opens s conectadosTxt .read = some file →
          scanWords 100 username (words file.2.1) = some true
  | .delete username fileName =>
      fileName.length = 0 ∨ fileName.length > 256 ∨ s.tree.access (folderOf username) = false ∨
        opens s conectadosTxt .read = none
  | _ => True

section Leaks
variable {s s' : Sys} {username fileName reply : Bytes}

theorem deleteServ_closes (ran : (deleteServ username fileName).run s = .ok reply s') :
    Closes s.handles s'.handles ↔ Releases s (.delete username fileName) := by
  unfold deleteServ at ran
  rw [Releases]
  split at ran
  · rename_i refused
    obtain ⟨-, rfl⟩ := pure_ok.mp ran
    exact iff_of_true (Closes.refl _) (refused.elim Or.inl fun long => Or.inr (Or.inl long))
  · rename_i sized
    rw [not_or] at sized
    replace ran := access_then (sprintf_then ran)
    split at ran
    · rename_i absent
      obtain ⟨-, rfl⟩ := pure_ok.mp ran
      exact iff_of_true (Closes.refl _) (Or.inr (Or.inr (Or.inl (by simpa using absent))))
    · rename_i present
      rcases fopen_then ran with ⟨closed, ran⟩ | ⟨file, opened, ran⟩
      · obtain ⟨-, rfl⟩ := pure_ok.mp ran
        exact iff_of_true (Closes.refl _) (Or.inr (Or.inr (Or.inr closed)))
      · have rest : Logs (s.handles ++ [.opened s.handles.length]) (do
            let filepath ← sprintf 256 (fileOf (folderOf username) fileName)
            if !(← remove filepath) then
              return ascii "3"
            return ascii "0") fun _ h' => h' = s.handles ++ [.opened s.handles.length] :=
          (silent_sprintf _ _).then fun filepath => (silent_change _).then fun gone =>
            Logs.ite (fun _ => Logs.pure rfl) fun _ => Logs.pure rfl
        have last := rest.returned ran
        refine iff_of_false (@not_closes_of_left _ _ s.handles.length ?_) ?_
        · rw [last]
          exact Closes.refl _
        · rintro (h | h | h | h)
          · exact sized.1 h
          · exact sized.2 h
          · rw [h] at present
            exact present rfl
          · rw [h] at opened
            cases opened

/-- What PUBLISH does after the scan. -/
def publishFile (foldername fileName description : Bytes) : Op Bytes := do
  if fileName = ascii "notfound" then
    return ascii "4"
  let filepath ← sprintf 256 (fileOf foldername fileName)
  let file ← fopen filepath .write
  if file.isNone then
    return ascii "4"
  fputs (description ++ [newline]) file
  fclose file
  return ascii "0"

theorem logs_publishFile (h : List HandleEvent) (foldername fileName description : Bytes) :
    Logs h (publishFile foldername fileName description) fun _ => Closes h := by
  refine Logs.ite (fun _ => Logs.pure (Closes.refl h)) fun _ => (silent_sprintf _ _).then fun _ => ?_
  refine (logs_fopen _ _).bind fun file h₁ opened => ?_
  rcases opened with ⟨rfl, rfl⟩ | ⟨f, rfl, named, rfl⟩
  · exact Logs.pure (Closes.refl h₁)
  · exact (silent_fputs _ _).then fun _ => logs_fclose_last named (Logs.pure (closes_pair h _))

theorem Closes.trans {h h' h'' : List HandleEvent} (first : Closes h h') (second : Closes h' h'') :
    Closes h h'' := by
  obtain ⟨events, rfl, replayed⟩ := first
  obtain ⟨later, rfl, replayed'⟩ := second
  refine ⟨events ++ later, by rw [List.append_assoc], ?_⟩
  rw [stillOpen_append, replayed, Option.bind_some, replayed']

theorem publishServ_closes {description : Bytes}
    (ran : (publishServ username fileName description).run s = .ok reply s') :
    Closes s.handles s'.handles ↔ Releases s (.publish username fileName description) := by
  unfold publishServ at ran
  rw [Releases]
  replace ran := access_then (sprintf_then (sprintf_then ran))
  split at ran
  · rename_i absent
    obtain ⟨-, rfl⟩ := pure_ok.mp ran
    rw [Bool.not_eq_true'] at absent
    exact iff_of_true (Closes.refl _) fun present => by rw [absent] at present; cases present
  · rename_i present
    replace ran := access_then ran
    split at ran
    · rename_i there
      obtain ⟨-, rfl⟩ := pure_ok.mp ran
      exact iff_of_true (Closes.refl _) fun _ fresh => by rw [there] at fresh; cases fresh
    · rename_i fresh
      rw [Bool.not_eq_true', Bool.not_eq_false] at present
      rw [Bool.not_eq_true] at fresh
      rcases fopen_then ran with ⟨closed, ran⟩ | ⟨file, opened, ran⟩
      · obtain ⟨-, rfl⟩ := pure_ok.mp ran
        refine iff_of_true (Closes.refl _) fun _ _ file opened => ?_
        rw [closed] at opened
        cases opened
      · obtain ⟨found, scanned, ran⟩ := findWord_then ran
        simp only [present, fresh, opened, Option.some.injEq, forall_eq', true_imp_iff, scanned]
        cases found with
        | true =>
            have rest : Logs (s.handles ++ [.opened s.handles.length]) (do
                fclose (some ⟨s.handles.length, file.1, file.2.1⟩)
                publishFile (folderOf username) fileName description) fun _ => Closes s.handles :=
              logs_fclose_last rfl (Meets.consequence (logs_publishFile _ _ _ _) (fun _ same => same)
                (fun _ _ later => (closes_pair _ _).trans later) fun _ _ _ => trivial)
            have last : Closes s.handles s'.handles := Meets.returned rest rfl ran
            exact iff_of_true last rfl
        | false =>
            have last :=
              (logs_publishFile (s.handles ++ [.opened s.handles.length]) _ _ _).returned ran
            exact iff_of_false (not_closes_of_left last) (by simp)

theorem silent_copyOthers (tempFile : Option Stream) (read : List Bytes) :
    ∀ userFound, Silent (copyOthers username tempFile userFound read) := by
  induction read with
  | nil => exact fun _ _ => Logs.pure rfl
  | cons line rest ih =>
      intro userFound h
      rw [copyOthers]
      split
      · exact ih true h
      · exact (silent_fputs _ _).then fun _ => ih userFound h

theorem closes_both (h : List HandleEvent) :
    Closes h (h ++ [.opened h.length] ++ [.opened (h.length + 1)] ++ [.closed h.length] ++
      [.closed (h.length + 1)]) := by
  refine ⟨[.opened h.length, .opened (h.length + 1), .closed h.length, .closed (h.length + 1)],
    by simp, ?_⟩
  simp [stillOpen]

theorem not_closes_second (h : List HandleEvent) :
    ¬ Closes h (h ++ [.opened h.length] ++ [.opened (h.length + 1)] ++ [.closed h.length]) := by
  rintro ⟨events, same, replayed⟩
  obtain rfl : [.opened h.length, .opened (h.length + 1), .closed h.length] = events := by
    simpa [List.append_assoc] using same
  simp [stillOpen] at replayed

theorem opens_temp (s : Sys) {s₁ : Sys} (tree : s₁.tree = s.tree)
    (faults : s₁.faults = s.faults.tail) :
    opens s₁ tempTxt .write = if s.fails 1 then none else openFile s.tree tempTxt .write := by
  have later : s₁.fails 0 = s.fails 1 := fails_drop (n := 1) (by rw [faults, List.drop_one]) 0
  rw [opens, later, tree]

theorem temp_none (s : Sys) {s₁ : Sys} (tree : s₁.tree = s.tree)
    (faults : s₁.faults = s.faults.tail) (temp : opens s₁ tempTxt .write = none)
    (steady : s.fails 1 = false) : s.tree.openWrite tempTxt = none := by
  rw [opens_temp s tree faults, steady, if_neg Bool.false_ne_true, openFile] at temp
  cases created : s.tree.openWrite tempTxt with
  | none => rfl
  | some file =>
      rw [created] at temp
      cases temp

theorem temp_some (s : Sys) {s₁ : Sys} (tree : s₁.tree = s.tree)
    (faults : s₁.faults = s.faults.tail) {file : Path × Bytes × FileTree}
    (temp : opens s₁ tempTxt .write = some file) :
    s.fails 1 = false ∧ s.tree.openWrite tempTxt ≠ none ∧ file.2.2 = withTemp s.tree := by
  rw [opens_temp s tree faults] at temp
  split at temp
  · cases temp
  · rename_i steady
    rw [openFile] at temp
    cases created : s.tree.openWrite tempTxt with
    | none =>
        rw [created] at temp
        cases temp
    | some opened =>
        rw [created] at temp
        cases temp
        exact ⟨by simpa using steady, Option.some_ne_none _, (withTemp_of_some created).symm⟩

theorem opens_table {file : Path × Bytes × FileTree}
    (opened : opens s conectadosTxt .update = some file) : file.2.2 = s.tree := by
  rw [opens] at opened
  split at opened
  · cases opened
  · obtain ⟨found, -, rfl⟩ := Option.map_eq_some_iff.mp opened
    rfl

/-- DISCONNECT from its loop on, over an open table. -/
def disconnectLoop (username : Bytes) (conectadosFile : Stream) (tempFile : Option Stream) :
    Op Bytes := do
  let userFound ← copyOthers username tempFile false (pieces 256 (← unread (some conectadosFile)))
  fclose (some conectadosFile)
  fclose tempFile
  let _ ← remove conectadosTxt
  let _ ← rename tempTxt conectadosTxt
  if userFound then
    return ascii "0"
  else
    return ascii "2"

theorem logs_disconnectLoop (h : List HandleEvent) (username : Bytes) (f : Stream)
    (tempFile : Option Stream) :
    Logs h (disconnectLoop username f tempFile) fun _ h' =>
      ∃ temp, tempFile = some temp ∧ h' = h ++ [.closed f.id] ++ [.closed temp.id] := by
  refine (silent_unread _).then fun text => (silent_copyOthers _ _ _).then fun userFound => ?_
  refine (logs_closeHandle f.id).bind fun _ h₁ closed => ?_
  rw [closed]
  cases tempFile with
  | none => exact logs_stops _
  | some temp =>
      refine (logs_closeHandle temp.id).bind fun _ h₂ closed => ?_
      rw [closed]
      refine (silent_change _).then fun removed => (silent_change _).then fun renamed => ?_
      exact Logs.ite (fun _ => Logs.pure ⟨temp, rfl, rfl⟩) fun _ => Logs.pure ⟨temp, rfl, rfl⟩

/-- DISCONNECT behind its two `fopen` calls. -/
def disconnectOver (username : Bytes) (conectadosFile tempFile : Option Stream) : Op Bytes := do
  let foldername ← sprintf 256 (folderOf username)
  if !(← access foldername) then
    fclose conectadosFile
    return ascii "1"
  match conectadosFile with
  | none => return ascii "3"
  | some table => disconnectLoop username table tempFile

theorem disconnect_no_table {s₁ : Sys} {tempFile : Option Stream}
    (ran : (disconnectOver username none tempFile).run s₁ = .ok reply s') :
    s'.handles = s₁.handles := by
  have logs : Logs s₁.handles (disconnectOver username none tempFile) fun _ h' =>
      h' = s₁.handles := by
    refine (silent_sprintf _ _).then fun foldername => (silent_access _).then fun there => ?_
    exact Logs.ite (fun _ => logs_stops _) fun _ => Logs.pure rfl
  exact logs.returned ran

/-- Over a table it closes temp.txt too, unless the folder is gone. -/
theorem disconnect_table {s₁ : Sys} {table : Stream} {tempFile : Option Stream}
    (ran : (disconnectOver username (some table) tempFile).run s₁ = .ok reply s') :
    (s₁.tree.access (folderOf username) = false ∧ s'.handles = s₁.handles ++ [.closed table.id]) ∨
      (s₁.tree.access (folderOf username) = true ∧ ∃ temp, tempFile = some temp ∧
        s'.handles = s₁.handles ++ [.closed table.id] ++ [.closed temp.id]) := by
  replace ran := access_then (sprintf_then ran)
  split at ran
  · rename_i absent
    rw [Bool.not_eq_true'] at absent
    have logs : Logs s₁.handles (do fclose (some table); return ascii "1") fun _ h' =>
        h' = s₁.handles ++ [.closed table.id] :=
      (logs_closeHandle table.id).bind fun _ h' closed => Logs.pure closed
    exact Or.inl ⟨absent, logs.returned ran⟩
  · rename_i present
    rw [Bool.not_eq_true', Bool.not_eq_false] at present
    exact Or.inr ⟨present, (logs_disconnectLoop _ username table tempFile).returned ran⟩

theorem disconnectServ_closes (ran : (disconnectServ username).run s = .ok reply s') :
    Closes s.handles s'.handles ↔ Releases s (.disconnect username) := by
  unfold disconnectServ at ran
  rw [Releases]
  rcases fopen_then ran with ⟨tableClosed, ran⟩ | ⟨table, tableOpened, ran⟩
  · rw [tableClosed]
    rcases fopen_then ran with ⟨temp, ran⟩ | ⟨file, temp, ran⟩
    · have last := @disconnect_no_table s' username reply _ none ran
      refine iff_of_true ?_ fun steady created =>
        absurd (@temp_none s s.afterFault rfl rfl temp steady) created
      rw [last]
      exact Closes.refl _
    · obtain ⟨steady, created, -⟩ := @temp_some s s.afterFault rfl rfl file temp
      have last := @disconnect_no_table s' username reply _
        (some ⟨s.handles.length, file.1, file.2.1⟩) ran
      refine iff_of_false (@not_closes_of_left _ _ s.handles.length ?_) fun closes =>
        (closes steady created).2 rfl
      rw [last]
      exact Closes.refl _
  · rw [tableOpened]
    have tree := opens_table tableOpened
    rcases fopen_then ran with ⟨temp, ran⟩ | ⟨file, temp, ran⟩
    · refine iff_of_true ?_ fun steady created => absurd (temp_none s tree rfl temp steady) created
      rcases @disconnect_table s' username reply _ _ none ran with ⟨-, last⟩ | ⟨-, _, absurdity, -⟩
      · rw [last]
        exact closes_pair _ _
      · cases absurdity
    · obtain ⟨steady, created, now⟩ := temp_some s tree rfl temp
      rcases @disconnect_table s' username reply _ _ (some _) ran with
        ⟨absent, last⟩ | ⟨present, temp, same, last⟩
      · refine iff_of_false ?_ fun closes => ?_
        · rw [last]
          simpa using not_closes_second s.handles
        · have there := (closes steady created).1
          rw [← now, absent] at there
          cases there
      · obtain rfl := Option.some.inj same
        simp only [now] at present
        refine iff_of_true ?_ fun _ _ => ⟨present, Option.some_ne_none _⟩
        rw [last]
        simpa using closes_both s.handles

end Leaks

/-! ## Requests and runs -/

def Returns (s : Sys) (event : Request × Reply) (s' : Sys) : Prop :=
  (serve event.1).run s = .ok event.2 s'

theorem serve_closes {s s' : Sys} {event : Request × Reply} (ran : Returns s event s') :
    Closes s.handles s'.handles ↔ Releases s event.1 := by
  obtain ⟨request, reply⟩ := event
  cases request with
  | register username =>
      exact iff_of_true ((logs_registerServ username _).returned (answer_ok ran)) trivial
  | unregister username =>
      exact iff_of_true ((logs_unregisterServ username _).returned (answer_ok ran)) trivial
  | connect username freePort freeServer =>
      exact iff_of_true ((logs_connectServ username _ freePort freeServer).returned (answer_ok ran))
        trivial
  | disconnect username => exact disconnectServ_closes (answer_ok ran)
  | publish username fileName description => exact publishServ_closes (answer_ok ran)
  | delete username fileName => exact deleteServ_closes (answer_ok ran)
  | listUsers username =>
      obtain ⟨⟨res, res2⟩, middle, listed, rest⟩ := bind_ok.mp ran
      obtain ⟨-, rfl⟩ := pure_ok.mp rest
      exact iff_of_true ((logs_listUsersServ username _).returned listed) trivial
  | listContent username usernameFolder =>
      obtain ⟨⟨res, res2, resUsername⟩, middle, listed, rest⟩ := bind_ok.mp ran
      obtain ⟨-, rfl⟩ := pure_ok.mp rest
      exact iff_of_true ((logs_listContentServ username _ usernameFolder).returned listed) trivial

def openHandles (s : Sys) : Option (List Nat) := stillOpen [] s.handles

/-- The request closes what it opens, once each, and the same handles are open
after it as before. -/
def LeavesHandles (s s' : Sys) : Prop := Closes s.handles s'.handles ∧ openHandles s' = openHandles s

theorem leavesHandles_iff {s s' : Sys} : LeavesHandles s s' ↔ Closes s.handles s'.handles :=
  and_iff_left_of_imp fun closes => closes.stillOpen []

theorem run_openHandles {start last : Sys} {history : History}
    (run : Run (fun s event s' => Returns s event s' ∧ Releases s event.1) start history last) :
    openHandles last = openHandles start :=
  run.invariant (P := fun _ s => openHandles s = openHandles start) rfl
    fun before step => ((serve_closes step.1).mpr step.2).stillOpen [] |>.trans before

/-- In a run of any length, with calls failing in any way, every request leaves the
handles as they were if and only if it is one of those that release them; then
the handles that are open do not change. -/
theorem leavesHandles_iff_releases (start last : Sys) (history : History) :
    (Run (fun s event s' => Returns s event s' ∧ LeavesHandles s s') start history last ↔
        Run (fun s event s' => Returns s event s' ∧ Releases s event.1) start history last) ∧
      (Run (fun s event s' => Returns s event s' ∧ Releases s event.1) start history last →
        openHandles last = openHandles start) := by
  refine ⟨⟨fun run => run.mono fun one => ?_, fun run => run.mono fun one => ?_⟩, run_openHandles⟩
  · exact ⟨one.1, (serve_closes one.1).mp one.2.1⟩
  · exact ⟨one.1, leavesHandles_iff.mpr ((serve_closes one.1).mpr one.2)⟩

def handlesAfter (s : Sys) (request : Request) : Option (List HandleEvent) :=
  match (serve request).run s with
  | .ok _ s' => some s'.handles
  | .error _ _ => none

theorem handlesAfter_eq_some {s : Sys} {request : Request} {h : List HandleEvent}
    (left : handlesAfter s request = some h) :
    ∃ reply s', Returns s (request, reply) s' ∧ s'.handles = h := by
  rw [handlesAfter] at left
  cases ran : (serve request).run s with
  | ok reply s' =>
      rw [ran] at left
      exact ⟨reply, s', ran, Option.some.inj left⟩
  | error e s' =>
      rw [ran] at left
      cases left

/-- DELETE of a file that is not there leaves the table open. -/
theorem delete_leaks_table :
    ¬ ∀ (s s' : Sys) (event : Request × Reply), Returns s event s' → LeavesHandles s s' := by
  intro always
  have leaks : handlesAfter ⟨treeAfter firstStart [.register (ascii "ana")], [], []⟩
      (.delete (ascii "ana") (ascii "notes")) = some [.opened 0] := by decide +kernel
  obtain ⟨reply, s', ran, left⟩ := handlesAfter_eq_some leaks
  have same := (always _ s' _ ran).2
  rw [openHandles, openHandles, left] at same
  cases same

end DistrApp.Server
