import DistrApp.Server.Serve

/-!
# What passing the registered check means

Registration is the existence of a path.  For a proper name, and along runs in
which nothing else creates a direct child of `usuarios`, the check passes only
after a REGISTER of exactly that name.
-/

set_option autoImplicit false

namespace DistrApp.Server

open Text FileTree Effects

/-- The request gets past its test that the user exists. -/
def PassesCheck (t : FileTree) : Request → Prop
  | .unregister username => t.access (folderOf username) = true
  | .connect username _ _ => t.access (folderOf username) = true
  -- temp.txt has been opened before the test
  | .disconnect username => (withTemp t).access (folderOf username) = true
  | .publish username _ _ => t.access (folderOf username) = true
  | .delete username fileName =>
      ¬ (fileName.length = 0 ∨ fileName.length > 256) ∧ t.access (folderOf username) = true
  | .listUsers username => username ≠ [] ∧ t.access (folderOf username) = true
  | _ => False

def TestsUser : Request → Prop
  | .register _ => False
  | .listContent _ _ => False
  | _ => True

/-- The code of that test, or of the one made before it. -/
def missingCode : Request → Bytes
  | .delete _ fileName =>
      if fileName.length = 0 ∨ fileName.length > 256 then ascii "4" else ascii "1"
  | .listUsers username => if username = [] then ascii "2" else ascii "1"
  | _ => ascii "1"

section Replies
variable {s s' : Sys} {username fileName reply : Bytes}

theorem unregister_passes_iff (calm : s.faults = [])
    (folder : s.tree.access (folderOf username) = true →
      s.tree.opendir (folderOf username) ≠ none)
    (ran : (unregisterServ username).run s = .ok reply s') :
    s.tree.access (folderOf username) = true ↔ reply ≠ ascii "1" := by
  have short : username.length < 244 := by
    by_contra long
    rw [run_unregisterServ_long s (not_lt.mp long)] at ran
    cases ran
  constructor
  · intro passes
    obtain ⟨entries, listed⟩ := Option.ne_none_iff_exists'.mp (folder passes)
    obtain ⟨p, found, -⟩ := find_of_opendir listed
    by_cases fits : ∀ name content, s.tree.node (p ++ [name]) = some (.file content) →
        13 + username.length + name.length < 1024
    · obtain ⟨t', -, handles, ran'⟩ := run_unregisterServ calm short found fits
      rw [ran'] at ran
      split at ran <;> (cases ran; decide)
    · push Not at fits
      obtain ⟨s₁, overflow⟩ := run_unregisterServ_overflow calm short found fits
      rw [overflow] at ran
      cases ran
  · intro other
    by_contra fails
    have absent : s.tree.opendir (folderOf username) = none := by
      by_contra present
      obtain ⟨entries, listed⟩ := Option.ne_none_iff_exists'.mp present
      obtain ⟨p, found, -⟩ := find_of_opendir listed
      exact fails (access_of_find found)
    rw [run_unregisterServ_absent calm short absent] at ran
    cases ran
    exact other rfl

theorem disconnect_passes_iff (calm : s.faults = [])
    (ran : (disconnectServ username).run s = .ok reply s') :
    (withTemp s.tree).access (folderOf username) = true ↔ reply ≠ ascii "1" := by
  have short : username.length < 244 := by
    by_contra long
    obtain ⟨s₁, overflow⟩ := run_disconnectServ_long calm (not_lt.mp long)
    rw [overflow] at ran
    cases ran
  cases present : (withTemp s.tree).access (folderOf username) with
  | false =>
      obtain ⟨stops, returns⟩ := run_disconnectServ_absent calm short present
      cases update : s.tree.openUpdate conectadosTxt with
      | none =>
          obtain ⟨handles, ran'⟩ := stops update
          rw [ran'] at ran
          cases ran
      | some opened =>
          obtain ⟨handles, ran'⟩ := returns opened update
          rw [ran'] at ran
          cases ran
          exact iff_of_false (by decide) (by decide)
  | true =>
      refine iff_of_true rfl ?_
      cases update : s.tree.openUpdate conectadosTxt with
      | none =>
          obtain ⟨handles, ran'⟩ := run_disconnectServ_noTable calm short present update
          rw [ran'] at ran
          cases ran
          decide
      | some opened =>
          obtain ⟨p, text⟩ := opened
          cases created : s.tree.openWrite tempTxt with
          | none =>
              rw [withTemp_of_none created] at present
              obtain ⟨handles, ran'⟩ := run_disconnectServ_noTemp calm short present update created
              rw [ran'] at ran
              cases ran
          | some made =>
              obtain ⟨q, t₁⟩ := made
              obtain ⟨t', handles, ran', -⟩ :=
                run_disconnectServ calm short present update created
              rw [ran'] at ran
              cases ran
              split <;> decide

end Replies

/-- What the code tests, read off its replies: a request that returns has passed
the check if and only if the reply is not the code of the test. -/
theorem passesCheck_iff_reply {s s' : Sys} {request : Request} {reply : Reply}
    (calm : s.faults = []) (tests : TestsUser request)
    (folder : ∀ username, request = .unregister username →
      s.tree.access (folderOf username) = true → s.tree.opendir (folderOf username) ≠ none)
    (ran : (serve request).run s = .ok reply s') :
    PassesCheck s.tree request ↔ reply.res ≠ missingCode request := by
  obtain ⟨zero, two, three, four⟩ : ascii "0" ≠ ascii "1" ∧ ascii "2" ≠ ascii "1" ∧
    ascii "3" ≠ ascii "1" ∧ ascii "4" ≠ ascii "1" := by decide
  cases request with
  | register username => cases tests
  | listContent username usernameFolder => cases tests
  | unregister username => exact unregister_passes_iff calm (folder _ rfl) (answer_ok ran)
  | disconnect username => exact disconnect_passes_iff calm (answer_ok ran)
  | connect username freePort freeServer =>
      have ran := answer_ok ran
      rw [run_connectServ calm] at ran
      simp only [PassesCheck, missingCode]
      grind
  | publish username fileName description =>
      have ran := answer_ok ran
      rw [run_publishServ calm] at ran
      simp only [PassesCheck, missingCode]
      grind
  | delete username fileName =>
      have ran := answer_ok ran
      rw [run_deleteServ calm] at ran
      simp only [PassesCheck, missingCode]
      grind
  | listUsers username =>
      obtain ⟨listed, s₁, listing, finished⟩ := bind_ok.mp ran
      obtain ⟨rfl, rfl⟩ := pure_ok.mp finished
      rw [run_listUsersServ calm] at listing
      simp only [PassesCheck, missingCode]
      grind

def noteRegistration (username : Bytes) (registered : Bool) : Request × Reply → Bool
  | (.register name, reply) => if name = username ∧ reply.res = ascii "0" then true else registered
  | (.unregister name, reply) =>
      if name = username ∧ reply.res = ascii "0" then false else registered
  | _ => registered

/-- The last successful REGISTER or UNREGISTER of exactly this name was a REGISTER. -/
def lastRegistered (username : Bytes) (history : History) : Bool :=
  history.foldl (noteRegistration username) false

/-- A name of one component, and not one of the server's own files. -/
def ProperName (name : Name) : Prop :=
  ValidName name ∧ name ≠ ascii "conectados.txt" ∧ name ≠ ascii "temp.txt"

instance : DecidablePred ProperName := fun name =>
  inferInstanceAs (Decidable
    (ValidName name ∧ name ≠ ascii "conectados.txt" ∧ name ≠ ascii "temp.txt"))

/-- A direct child of `usuarios` is created only by REGISTER, under its own name. -/
def CreatesOwnName (t : FileTree) : Request → Prop
  | .register username => ∀ name, t.resolve (folderOf username) = some (usuarios t ++ [name]) →
      t.node (usuarios t ++ [name]) = none → name = username
  | .publish username fileName _ => ∀ name,
      t.resolve (fileOf (folderOf username) fileName) = some (usuarios t ++ [name]) →
        t.node (usuarios t ++ [name]) ≠ none
  | _ => True

def ExactStep (t : FileTree) (event : Request × Reply) (t' : FileTree) : Prop :=
  Serves t event t' ∧ CreatesOwnName t event.1

def Fresh (t : FileTree) : Prop :=
  Started t ∧ ∀ name, t.node (usuarios t ++ [name]) ≠ none → ¬ ProperName name

theorem lastRegistered_snoc (username : Bytes) (history : History) (event : Request × Reply) :
    lastRegistered username (history ++ [event]) =
      noteRegistration username (lastRegistered username history) event := by
  rw [lastRegistered, lastRegistered, List.foldl_append]
  rfl

theorem access_proper {t : FileTree} {name : Name} (proper : ProperName name)
    (there : t.access (folderOf name) = true) : t.node (usuarios t ++ [name]) ≠ none := by
  rw [access_name (rooted_of_access there) proper.1] at there
  exact Option.isSome_iff_ne_none.mp there

theorem withTemp_others {t : FileTree} {q : Path} (notTemp : q ≠ tempPath t) :
    (withTemp t).cwd = t.cwd ∧ (withTemp t).node q = t.node q := by
  cases created : t.openWrite tempTxt with
  | none => rw [withTemp_of_none created]; exact ⟨rfl, rfl⟩
  | some opened =>
      obtain ⟨p, t₁⟩ := opened
      rw [withTemp_of_some created]
      obtain ⟨free, _, only⟩ := openWrite_some created
      have resolved := (creatable_some free).1
      rw [tempTxt_eq] at resolved
      rw [openWrite_temp (rooted_of_resolve resolved) created] at only
      exact ⟨only.cwd, only.others q notTemp⟩

theorem child_ne_temp {t : FileTree} {name : Name} (proper : ProperName name) :
    usuarios t ++ [name] ≠ tempPath t := by
  intro same
  exact proper.2.2 (List.singleton_inj.mp (List.append_cancel_left same))

theorem child_ne_table {t : FileTree} {name : Name} (proper : ProperName name) :
    usuarios t ++ [name] ≠ tablePath t := by
  intro same
  exact proper.2.1 (List.singleton_inj.mp (List.append_cancel_left same))

theorem node_of_passesCheck {t : FileTree} {request : Request} (passes : PassesCheck t request)
    (proper : ProperName request.username) :
    t.node (usuarios t ++ [request.username]) ≠ none := by
  cases request with
  | unregister username => exact access_proper proper passes
  | connect username _ _ => exact access_proper proper passes
  | disconnect username =>
      have present := access_proper proper passes
      have ⟨cwd, same⟩ := withTemp_others (child_ne_temp (t := t) proper)
      rw [usuarios_congr cwd] at present
      exact same ▸ present
  | publish username _ _ => exact access_proper proper passes
  | delete username _ => exact access_proper proper passes.2
  | listUsers username => exact access_proper proper passes.2
  | register _ => cases passes
  | listContent _ _ => cases passes

def ChildrenRegistered (history : History) (t : FileTree) : Prop :=
  ∀ name, ProperName name → t.node (usuarios t ++ [name]) ≠ none →
    lastRegistered name history = true

theorem noteRegistration_keeps {t t' : FileTree} {event : Request × Reply} {name : Name}
    (outcome : Outcome t event.1 event.2.res t') (proper : ProperName name)
    (now : t'.node (usuarios t ++ [name]) ≠ none) : noteRegistration name true event = true := by
  obtain ⟨request, reply⟩ := event
  cases request with
  | register _ => simp only [noteRegistration, ite_self]
  | unregister username =>
      rw [noteRegistration]
      split
      · rename_i undone
        obtain ⟨rfl, zero⟩ := undone
        simp only [zero] at outcome
        exfalso
        cases outcome with
        | unchanged quiet => exact quiet rfl
        | unregistered found thin removed =>
            obtain ⟨p, found', _, gone, _⟩ := rmdir_some removed
            have resolved := (find_node found').1
            rw [resolve_name (rooted_of_resolve resolved) proper.1] at resolved
            split at resolved
            · cases resolved
              rw [usuarios_congr thin.dirs.cwd] at gone
              exact now gone
            · contradiction
      · rfl
  | connect _ _ _ => rfl
  | disconnect _ => rfl
  | publish _ _ _ => rfl
  | delete _ _ => rfl
  | listUsers _ => rfl
  | listContent _ _ => rfl

theorem childrenRegistered_step {t t' : FileTree} {history : History} {event : Request × Reply}
    (registered : ChildrenRegistered history t) (step : ExactStep t event t') :
    ChildrenRegistered (history ++ [event]) t' := by
  have outcome := serves_outcome step.1
  have exact := step.2
  intro name proper now
  rw [usuarios_congr (outcome_cwd outcome)] at now
  rw [lastRegistered_snoc]
  by_cases absent : t.node (usuarios t ++ [name]) = none
  · rcases outcome_created outcome absent now with ⟨username, request, zero, resolved⟩ |
      ⟨username, fileName, description, request, resolved⟩ | table | temp
    · obtain ⟨request', reply⟩ := event
      simp only at request zero
      subst request
      obtain rfl := exact name resolved absent
      simp [noteRegistration, zero]
    · rw [request] at exact
      exact absurd absent (exact name resolved)
    · exact absurd table (child_ne_table proper)
    · exact absurd temp (child_ne_temp proper)
  · rw [registered name proper absent]
    exact noteRegistration_keeps outcome proper now

/-- Along runs in which only REGISTER creates children of `usuarios`, each
under its own name, the check is sound for proper names. -/
theorem check_sound {start t : FileTree} {history : History} (fresh : Fresh start)
    (run : Run ExactStep start history t) {request : Request} (passes : PassesCheck t request)
    (proper : ProperName request.username) :
    lastRegistered request.username history = true := by
  have registered : ChildrenRegistered history t :=
    run.invariant (P := ChildrenRegistered)
      (fun name proper now => absurd proper (fresh.2 name now))
      fun registered step => childrenRegistered_step registered step
  exact registered _ proper (node_of_passesCheck passes proper)

theorem fresh_firstStart : Fresh firstStart := by
  refine ⟨by decide, fun name present proper => ?_⟩
  obtain ⟨n, here⟩ := Option.ne_none_iff_exists'.mp present
  have listed := mem_entries.mpr here
  have all : firstStart.entries (usuarios firstStart) = [(ascii "conectados.txt", .file [])] := by
    decide
  rw [all, List.mem_singleton, Prod.mk.injEq] at listed
  exact proper.2.1 listed.1

theorem check_sound_ana :
    lastRegistered (ascii "ana") (historyAfter firstStart [.register (ascii "ana")]) = true := by
  have creates : HoldsAlong CreatesOwnName firstStart [.register (ascii "ana")] := by
    refine ⟨fun name resolved _ => ?_, trivial⟩
    have place : firstStart.resolve (folderOf (ascii "ana")) =
        some (usuarios firstStart ++ [ascii "ana"]) := by decide
    rw [place, Option.some.injEq] at resolved
    exact (List.singleton_inj.mp (List.append_cancel_left resolved)).symm
  have passes : PassesCheck (treeAfter firstStart [.register (ascii "ana")])
      (.listUsers (ascii "ana")) := ⟨by decide, by decide⟩
  have proper : ProperName (Request.listUsers (ascii "ana")).username := by decide
  exact check_sound fresh_firstStart (run_of_holdsAlong (by decide) creates (by decide)) passes
    proper

/-- On a first start CONNECT with the empty name passes the check. -/
theorem empty_name_passes :
    ¬ ∀ (start t : FileTree) (history : History) (request : Request), Fresh start →
      Run Serves start history t → request.Deliverable → PassesCheck t request →
      lastRegistered request.username history = true := by
  intro sound
  have passes : PassesCheck firstStart (.connect [] (ascii "4001") (ascii "10.0.0.1")) := by
    show firstStart.access (folderOf []) = true
    decide
  exact absurd (sound _ _ [] _ fresh_firstStart .start (by decide) passes) (by decide)

end DistrApp.Server
