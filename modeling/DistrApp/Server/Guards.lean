import DistrApp.Server.Disconnect

/-!
# Which requests are checked

PUBLISH, DELETE and the two listings each carry a part of the test that the
requester is registered and connected, and none carries all of it.
`RefusedUnless` spells out when the tests that are there stop a request; past
them it is answered whoever sent it.
-/

set_option autoImplicit false

namespace DistrApp.Server

open Text FileTree Effects

/-- The folder the name leads to is one that an accepted REGISTER of this name leaves. -/
def Registered (t : FileTree) (username : Bytes) : Prop :=
  ∃ s reply s', s.tree.cwd = t.cwd ∧ (serve (.register username)).run s = .ok reply s' ∧
    reply.res = ascii "0" ∧ s'.tree.find (folderOf username) = t.find (folderOf username)

def Entitled (t : FileTree) (username : Bytes) : Prop := Registered t username ∧ Listed t username

def Refusal (res : Bytes) : Prop := res ∈ replyCodes ∧ res ≠ ascii "0"

instance : DecidablePred Refusal := fun res =>
  inferInstanceAs (Decidable (res ∈ replyCodes ∧ res ≠ ascii "0"))

/-- The request is answered; with `"0"` only for an entitled user, and else with
another code and without a change. -/
def Guarded (s : Sys) (request : Request) : Prop :=
  ∃ reply s', (serve request).run s = .ok reply s' ∧
    (reply.res = ascii "0" ∧ Entitled s.tree request.username ∨
      Refusal reply.res ∧ s'.tree = s.tree)

/-- The arrays and the scan of `publish_serv` suffice, and a test stops the
request unless `allowed` holds. -/
def PublishRefusedUnless (t : FileTree) (allowed : Prop) (username fileName : Bytes) : Prop :=
  username.length < 38 ∧ username.length + fileName.length < 83 ∧
    (t.access (folderOf username) = false ∨
      t.access (fileOf (folderOf username) fileName) = true ∨
      t.openRead conectadosTxt = none ∨
      ∃ opened, t.openRead conectadosTxt = some opened ∧
        scanWords 100 username (words opened.2) ≠ none ∧
        (fileName = ascii "notfound" ∨
          t.openWrite (fileOf (folderOf username) fileName) = none ∨ allowed))

def DeleteRefusedUnless (t : FileTree) (allowed : Prop) (username fileName : Bytes) : Prop :=
  fileName.length = 0 ∨ fileName.length > 256 ∨
    username.length < 48 ∧
      (t.access (folderOf username) = false ∨ t.openRead conectadosTxt = none ∨
        username.length + fileName.length < 239 ∧
          (t.remove (fileOf (folderOf username) fileName) = none ∨ allowed))

def ListUsersRefusedUnless (t : FileTree) (allowed : Prop) (username : Bytes) : Prop :=
  username = [] ∨ username.length < 8 ∧
    (t.access (folderOf username) = false ∨ t.openRead conectadosTxt = none ∨ allowed)

/-- A folder that does not open is answered with a sentence, which is no code. -/
def ListContentRefusedUnless (t : FileTree) (allowed : Prop) (usernameFolder : Bytes) : Prop :=
  usernameFolder.length < 38 ∧ t.opendir (folderOf usernameFolder) ≠ none ∧ allowed

/-- The requests that ought to come from connected users. -/
def NeedsConnection : Request → Prop
  | .publish _ _ _ => True
  | .delete _ _ => True
  | .listUsers _ => True
  | .listContent _ _ => True
  | _ => False

def RefusedUnless (t : FileTree) (allowed : Prop) : Request → Prop
  | .publish username fileName _ => PublishRefusedUnless t allowed username fileName
  | .delete username fileName => DeleteRefusedUnless t allowed username fileName
  | .listUsers username => ListUsersRefusedUnless t allowed username
  | .listContent _ usernameFolder => ListContentRefusedUnless t allowed usernameFolder
  | _ => False

section Results
variable {s s' : Sys} {request : Request}

theorem not_guarded {e : Undefined} (ran : (serve request).run s = .error e s') :
    ¬ Guarded s request := by
  rintro ⟨reply, s₁, returned, _⟩
  rw [ran] at returned
  cases returned

theorem guarded_of_refused {reply : Reply} (ran : (serve request).run s = .ok reply s')
    (refused : Refusal reply.res) (same : s'.tree = s.tree) : Guarded s request :=
  ⟨reply, s', ran, Or.inr ⟨refused, same⟩⟩

theorem guarded_iff_of_granted {reply : Reply} (ran : (serve request).run s = .ok reply s')
    (granted : reply.res = ascii "0") : Guarded s request ↔ Entitled s.tree request.username := by
  constructor
  · rintro ⟨reply', s₁, returned, ⟨_, entitled⟩ | ⟨refused, _⟩⟩
    · exact entitled
    · rw [ran] at returned
      cases returned
      exact absurd granted refused.2
  · intro entitled
    exact ⟨reply, s', ran, Or.inl ⟨granted, entitled⟩⟩

end Results

theorem guarded_publish {s : Sys} (calm : s.faults = []) (username fileName description : Bytes) :
    Guarded s (.publish username fileName description) ↔
      PublishRefusedUnless s.tree (Entitled s.tree username) username fileName := by
  have ran := run_publishServ calm username fileName description
  unfold PublishRefusedUnless
  by_cases long : 38 ≤ username.length ∨ 83 ≤ username.length + fileName.length
  · rw [if_pos long] at ran
    refine iff_of_false (not_guarded (run_answer_error ran)) ?_
    rintro ⟨short, shortFile, _⟩
    omega
  · rw [if_neg long] at ran
    have short : username.length < 38 ∧ username.length + fileName.length < 83 := by omega
    cases registered : s.tree.access (folderOf username) with
    | false =>
        rw [registered] at ran
        exact iff_of_true (guarded_of_refused (run_answer_ok ran) (show Refusal (ascii "1") by decide) rfl)
          ⟨short.1, short.2, Or.inl rfl⟩
    | true =>
        rw [registered] at ran
        cases fresh : s.tree.access (fileOf (folderOf username) fileName) with
        | true =>
            rw [fresh] at ran
            exact iff_of_true
              (guarded_of_refused (run_answer_ok ran) (show Refusal (ascii "3") by decide) rfl)
              ⟨short.1, short.2, Or.inr (Or.inl rfl)⟩
        | false =>
            rw [fresh] at ran
            cases read : s.tree.openRead conectadosTxt with
            | none =>
                rw [read] at ran
                exact iff_of_true
                  (guarded_of_refused (run_answer_ok ran) (show Refusal (ascii "2") by decide) rfl)
                  ⟨short.1, short.2, Or.inr (Or.inr (Or.inl rfl))⟩
            | some opened =>
                rw [read] at ran
                simp only [Bool.not_true, Bool.false_eq_true, if_false] at ran
                simp only [short, true_and, Bool.true_eq_false, Bool.false_eq_true, reduceCtorEq,
                  false_or, Option.some.injEq, exists_eq_left']
                cases scanned : scanWords 100 username (words opened.2) with
                | none =>
                    rw [scanned] at ran
                    refine iff_of_false (not_guarded (run_answer_error ran)) ?_
                    rintro ⟨absurdity, _⟩
                    exact absurdity rfl
                | some found =>
                    rw [scanned] at ran
                    simp only at ran
                    by_cases reserved : fileName = ascii "notfound"
                    · rw [if_pos reserved] at ran
                      exact iff_of_true (guarded_of_refused (run_answer_ok ran)
                        (show Refusal (ascii "4") by decide) rfl) ⟨by simp, Or.inl reserved⟩
                    · rw [if_neg reserved] at ran
                      cases created : s.tree.openWrite (fileOf (folderOf username) fileName) with
                      | none =>
                          rw [created] at ran
                          exact iff_of_true (guarded_of_refused (run_answer_ok ran)
                            (show Refusal (ascii "4") by decide) rfl)
                            ⟨by simp, Or.inr (Or.inl rfl)⟩
                      | some written =>
                          obtain ⟨file, tree⟩ := written
                          rw [created] at ran
                          have granted :
                              Guarded s (.publish username fileName description) ↔
                                Entitled s.tree username :=
                            guarded_iff_of_granted (run_answer_ok ran) rfl
                          rw [granted]
                          simp [reserved]

theorem guarded_delete {s : Sys} (calm : s.faults = []) (username fileName : Bytes) :
    Guarded s (.delete username fileName) ↔
      DeleteRefusedUnless s.tree (Entitled s.tree username) username fileName := by
  have ran := run_deleteServ calm username fileName
  unfold DeleteRefusedUnless
  by_cases sized : fileName.length = 0 ∨ fileName.length > 256
  · rw [if_pos sized] at ran
    exact iff_of_true (guarded_of_refused (run_answer_ok ran) (show Refusal (ascii "4") by decide) rfl)
      (sized.imp_right Or.inl)
  · rw [if_neg sized] at ran
    rw [← or_assoc, or_iff_right sized]
    by_cases long : 48 ≤ username.length
    · rw [if_pos long] at ran
      refine iff_of_false (not_guarded (run_answer_error ran)) ?_
      rintro ⟨short, _⟩
      omega
    · rw [if_neg long] at ran
      rw [and_iff_right (not_le.mp long)]
      cases registered : s.tree.access (folderOf username) with
      | false =>
          rw [registered] at ran
          exact iff_of_true
            (guarded_of_refused (run_answer_ok ran) (show Refusal (ascii "1") by decide) rfl) (Or.inl rfl)
      | true =>
          rw [registered] at ran
          cases read : s.tree.openRead conectadosTxt with
          | none =>
              rw [read] at ran
              exact iff_of_true
                (guarded_of_refused (run_answer_ok ran) (show Refusal (ascii "2") by decide) rfl)
                (Or.inr (Or.inl rfl))
          | some opened =>
              rw [read] at ran
              simp only [Bool.not_true, Bool.false_eq_true, if_false] at ran
              simp only [Bool.true_eq_false, reduceCtorEq, false_or]
              by_cases longer : 239 ≤ username.length + fileName.length
              · rw [if_pos longer] at ran
                refine iff_of_false (not_guarded (run_answer_error ran)) ?_
                rintro ⟨short, _⟩
                omega
              · rw [if_neg longer] at ran
                rw [and_iff_right (not_le.mp longer)]
                cases removed : s.tree.remove (fileOf (folderOf username) fileName) with
                | none =>
                    rw [removed] at ran
                    exact iff_of_true (guarded_of_refused (run_answer_ok ran)
                      (show Refusal (ascii "3") by decide) rfl) (Or.inl rfl)
                | some tree =>
                    rw [removed] at ran
                    have granted : Guarded s (.delete username fileName) ↔
                        Entitled s.tree username :=
                      guarded_iff_of_granted (run_answer_ok ran) rfl
                    rw [granted]
                    simp

theorem guarded_listUsers {s : Sys} (calm : s.faults = []) (username : Bytes) :
    Guarded s (.listUsers username) ↔
      ListUsersRefusedUnless s.tree (Entitled s.tree username) username := by
  have ran : (serve (.listUsers username)).run s = _ :=
    EStateM.run_bind (listUsersServ username) _
  rw [run_listUsersServ calm] at ran
  unfold ListUsersRefusedUnless
  by_cases empty : username = []
  · rw [if_pos empty] at ran
    exact iff_of_true (guarded_of_refused ran (show Refusal (ascii "2") by decide) rfl) (Or.inl empty)
  · rw [if_neg empty] at ran
    rw [or_iff_right empty]
    by_cases long : 8 ≤ username.length
    · rw [if_pos long] at ran
      refine iff_of_false (not_guarded ran) ?_
      rintro ⟨short, _⟩
      omega
    · rw [if_neg long] at ran
      rw [and_iff_right (not_le.mp long)]
      cases registered : s.tree.access (folderOf username) with
      | false =>
          rw [registered] at ran
          exact iff_of_true (guarded_of_refused ran (show Refusal (ascii "1") by decide) rfl)
            (Or.inl rfl)
      | true =>
          rw [registered] at ran
          cases read : s.tree.openRead conectadosTxt with
          | none =>
              rw [read] at ran
              exact iff_of_true (guarded_of_refused ran (show Refusal (ascii "2") by decide) rfl)
                (Or.inr (Or.inl rfl))
          | some opened =>
              rw [read] at ran
              rw [guarded_iff_of_granted ran rfl]
              simp [Request.username]

theorem guarded_listContent {s : Sys} (calm : s.faults = []) (username usernameFolder : Bytes) :
    Guarded s (.listContent username usernameFolder) ↔
      ListContentRefusedUnless s.tree (Entitled s.tree username) usernameFolder := by
  have ran : (serve (.listContent username usernameFolder)).run s = _ :=
    EStateM.run_bind (listContentServ username usernameFolder) _
  rw [run_listContentServ calm] at ran
  unfold ListContentRefusedUnless
  by_cases long : 38 ≤ usernameFolder.length
  · rw [if_pos long] at ran
    refine iff_of_false (not_guarded ran) ?_
    rintro ⟨short, _⟩
    omega
  · rw [if_neg long] at ran
    rw [and_iff_right (not_le.mp long)]
    cases opened : s.tree.opendir (folderOf usernameFolder) with
    | none =>
        rw [opened] at ran
        refine iff_of_false ?_ fun opens => opens.1 rfl
        rintro ⟨reply, s', returned, answered⟩
        rw [ran] at returned
        cases returned
        rcases answered with ⟨granted, _⟩ | ⟨refused, _⟩
        · exact absurd granted (by decide)
        · exact absurd refused (by decide)
    | some entries =>
        rw [opened] at ran
        rw [guarded_iff_of_granted ran rfl]
        simp [Request.username]

def anaAndBobPublished : List Request :=
  anaConnected ++ [.register (ascii "bob"), .connect (ascii "bob") (ascii "4002") (ascii "10.0.0.2"),
    .publish (ascii "ana") (ascii "notes") (ascii "first"),
    .publish (ascii "bob") (ascii "song") (ascii "second")]

theorem entitled_ana : Entitled (treeAfter firstStart anaAndBobPublished) (ascii "ana") := by
  have code : resOf ((serve (.register (ascii "ana"))).run ⟨firstStart, [], []⟩) =
      some (ascii "0") := by decide +kernel
  obtain ⟨reply, ran, granted⟩ := ran_of_resOf code
  refine ⟨⟨_, reply, _, by decide, ran, granted, by decide +kernel⟩, ?_⟩
  exact ⟨ascii "ana 10.0.0.1 4001 \nbob 10.0.0.2 4002 \n", by decide +kernel,
    ascii "ana 10.0.0.1 4001 \n", by decide, by decide⟩

end DistrApp.Server
