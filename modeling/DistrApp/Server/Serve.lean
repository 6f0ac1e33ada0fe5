import DistrApp.Server.Outcomes

/-!
# Requests, and runs of them

A request is an operation with the fields the handler passes on.  `Serves` is
one request served to its end, with calls failing in any way; where the code
leaves what C defines there is no step.  `Outcome` lists what a step can do to
the tree, and the facts about all runs are derived from it.
-/

set_option autoImplicit false

namespace DistrApp.Server

open Text FileTree Effects

inductive Request
  | register (username : Bytes)
  | unregister (username : Bytes)
  | connect (username freePort freeServer : Bytes)
  | disconnect (username : Bytes)
  | publish (username fileName description : Bytes)
  | delete (username fileName : Bytes)
  | listUsers (username : Bytes)
  | listContent (username usernameFolder : Bytes)
  deriving DecidableEq

namespace Request

def username : Request → Bytes
  | register username => username
  | unregister username => username
  | connect username _ _ => username
  | disconnect username => username
  | publish username _ _ => username
  | delete username _ => username
  | listUsers username => username
  | listContent username _ => username

def others : Request → List Bytes
  | connect _ freePort freeServer => [freePort, freeServer]
  | publish _ fileName description => [fileName, description]
  | delete _ fileName => [fileName]
  | listContent _ usernameFolder => [usernameFolder]
  | _ => []

def fields (request : Request) : List Bytes := request.username :: request.others

/-- The fields are strings that `readLine` can have stored. -/
def Deliverable (request : Request) : Prop :=
  ∀ field ∈ request.fields, (0 : UInt8) ∉ field ∧ newline ∉ field

instance : DecidablePred Deliverable := fun request =>
  inferInstanceAs (Decidable (∀ field ∈ request.fields, (0 : UInt8) ∉ field ∧ newline ∉ field))

def IsListing : Request → Prop
  | listUsers _ => True
  | listContent _ _ => True
  | _ => False

end Request

/-- `res`, and what the listings store through `res2` and `res_username`. -/
structure Reply where
  res : Bytes
  res2 : Option Int
  resUsername : Option Bytes
  deriving DecidableEq

def answer (op : Op Bytes) : Op Reply := do
  let res ← op
  return ⟨res, none, none⟩

def serve : Request → Op Reply
  | .register username => answer (registerServ username)
  | .unregister username => answer (unregisterServ username)
  | .connect username freePort freeServer => answer (connectServ username freePort freeServer)
  | .disconnect username => answer (disconnectServ username)
  | .publish username fileName description => answer (publishServ username fileName description)
  | .delete username fileName => answer (deleteServ username fileName)
  | .listUsers username => do
      let (res, res2) ← listUsersServ username
      return ⟨res, res2, none⟩
  | .listContent username usernameFolder => do
      let (res, res2, resUsername) ← listContentServ username usernameFolder
      return ⟨res, some res2, resUsername⟩

/-- The texts that are reply codes. -/
def replyCodes : List Bytes := [ascii "0", ascii "1", ascii "2", ascii "3", ascii "4"]

def resOf : EStateM.Result Undefined Sys Reply → Option Bytes
  | .ok reply _ => some reply.res
  | .error _ _ => none

theorem ran_of_resOf {result : EStateM.Result Undefined Sys Reply} {res : Bytes}
    (code : resOf result = some res) :
    ∃ reply, result = .ok reply (stopped result) ∧ reply.res = res := by
  cases result with
  | ok reply s => exact ⟨reply, rfl, Option.some.inj code⟩
  | error e s => cases code

def Serves (t : FileTree) (event : Request × Reply) (t' : FileTree) : Prop :=
  event.1.Deliverable ∧ ∃ s s' : Sys, s.tree = t ∧ (serve event.1).run s = .ok event.2 s' ∧
    s'.tree = t'

/-- The tree once `main` has opened conectados.txt with `"w"`. -/
def Started (t : FileTree) : Prop := Rooted t ∧ table t = some []

instance (t : FileTree) : Decidable (Started t) :=
  inferInstanceAs (Decidable (Rooted t ∧ table t = some []))

abbrev History := List (Request × Reply)

def Reachable (t : FileTree) : Prop :=
  ∃ start, Started start ∧ ∃ history : History, Run Serves start history t

/-! ## Runs that can be computed -/

/-- The requests one after the other, with no call failing by itself. -/
def serveAll (t : FileTree) : List Request → Option (History × FileTree)
  | [] => some ([], t)
  | request :: rest =>
      match (serve request).run ⟨t, [], []⟩ with
      | .ok reply s => (serveAll s.tree rest).map fun done => ((request, reply) :: done.1, done.2)
      | .error _ _ => none

theorem run_of_serveAll {requests : List Request} (deliverable : ∀ r ∈ requests, r.Deliverable) :
    ∀ {t t' : FileTree} {history : History}, serveAll t requests = some (history, t') →
      Run Serves t history t' := by
  induction requests with
  | nil =>
      intro t t' history served
      cases served
      exact Run.start
  | cons request rest ih =>
      intro t t' history served
      simp only [serveAll] at served
      split at served
      · rename_i reply s ran
        obtain ⟨⟨past, last⟩, later, shape⟩ := Option.map_eq_some_iff.mp served
        cases shape
        exact Run.cons ⟨deliverable request List.mem_cons_self, _, _, rfl, ran, rfl⟩
          (ih (fun r member => deliverable r (List.mem_cons_of_mem _ member)) later)
      · contradiction

/-- The tree after them; the first one where C stops defining the run. -/
def treeAfter (t : FileTree) (requests : List Request) : FileTree :=
  ((serveAll t requests).map Prod.snd).getD t

def historyAfter (t : FileTree) (requests : List Request) : History :=
  ((serveAll t requests).map Prod.fst).getD []

theorem run_treeAfter {t : FileTree} {requests : List Request}
    (deliverable : ∀ r ∈ requests, r.Deliverable) (served : (serveAll t requests).isSome = true) :
    Run Serves t (historyAfter t requests) (treeAfter t requests) := by
  obtain ⟨⟨history, last⟩, found⟩ := Option.isSome_iff_exists.mp served
  rw [treeAfter, historyAfter, found]
  exact run_of_serveAll deliverable found

def HoldsAlong (P : FileTree → Request → Prop) : FileTree → List Request → Prop
  | _, [] => True
  | t, request :: rest => P t request ∧ HoldsAlong P (treeAfter t [request]) rest

theorem run_of_holdsAlong {P : FileTree → Request → Prop} {requests : List Request} :
    ∀ {t : FileTree}, (∀ r ∈ requests, r.Deliverable) → HoldsAlong P t requests →
      (serveAll t requests).isSome = true →
      Run (fun t event t' => Serves t event t' ∧ P t event.1) t (historyAfter t requests)
        (treeAfter t requests) := by
  induction requests with
  | nil => intro t _ _ _; exact Run.start
  | cons request rest ih =>
      intro t deliverable holds served
      simp only [HoldsAlong, treeAfter, historyAfter, serveAll] at holds served ⊢
      cases ran : (serve request).run ⟨t, [], []⟩ with
      | error e s => rw [ran] at served; cases served
      | ok reply s =>
          rw [ran] at served holds
          simp only [Option.map_some, Option.getD_some, Option.isSome_map] at holds served ⊢
          obtain ⟨⟨past, last⟩, found⟩ := Option.isSome_iff_exists.mp served
          have later := ih (fun r member => deliverable r (List.mem_cons_of_mem _ member)) holds.2
            served
          rw [treeAfter, historyAfter, found] at later
          rw [found]
          exact Run.cons ⟨⟨deliverable request List.mem_cons_self, _, _, rfl, ran, rfl⟩, holds.1⟩
            later

/-- The state after the requests, wherever each of them stops. -/
def sysAfter (s : Sys) (requests : List Request) : Sys :=
  requests.foldl (fun s request => stopped ((serve request).run s)) s

def ReturnsAlong (P : Sys → Request → Prop) : Sys → List Request → Prop
  | _, [] => True
  | s, request :: rest => P s request ∧ (resOf ((serve request).run s)).isSome = true ∧
      ReturnsAlong P (stopped ((serve request).run s)) rest

theorem run_sysAfter {P : Sys → Request → Prop} {requests : List Request} :
    ∀ {s : Sys}, ReturnsAlong P s requests → ∃ history : History,
      history.map Prod.fst = requests ∧
        Run (fun s event s' => P s event.1 ∧ (serve event.1).run s = .ok event.2 s') s history
          (sysAfter s requests) := by
  induction requests with
  | nil => intro s _; exact ⟨[], rfl, Run.start⟩
  | cons request rest ih =>
      rintro s ⟨holds, returns, along⟩
      cases ran : (serve request).run s with
      | error e s' => rw [ran] at returns; cases returns
      | ok reply s' =>
          rw [ran] at along
          obtain ⟨history, names, run⟩ := ih along
          refine ⟨(request, reply) :: history, by rw [List.map_cons, names], ?_⟩
          rw [sysAfter, List.foldl_cons, ran]
          exact Run.cons ⟨holds, ran⟩ run

/-- A first start: the server's directory beside an empty `usuarios`, with the
table `main` has created. -/
def firstStart : FileTree :=
  ((({ cwd := [ascii "servidor"], nodes := ∅, closed := by simp } : FileTree).put
    [ascii "servidor"] .dir).put [ascii "usuarios"] .dir).put
    [ascii "usuarios", ascii "conectados.txt"] (.file [])

theorem reachable_treeAfter {requests : List Request}
    (deliverable : ∀ r ∈ requests, r.Deliverable)
    (served : (serveAll firstStart requests).isSome = true) :
    Reachable (treeAfter firstStart requests) :=
  ⟨firstStart, by decide, _, run_treeAfter deliverable served⟩

/-! ## What one request can do -/

inductive Outcome (t : FileTree) : Request → Bytes → FileTree → Prop
  | unchanged {request : Request} {res : Bytes} (quiet : res = ascii "0" → request.IsListing) :
      Outcome t request res t
  | registered {username : Bytes} {t' : FileTree}
      (made : t.mkdir (folderOf username) = some t') :
      Outcome t (.register username) (ascii "0") t'
  | thinned {username : Bytes} {p : Path} {t' : FileTree}
      (found : t.find (folderOf username) = some (p, .dir)) (thin : Thinned p t t') :
      Outcome t (.unregister username) (ascii "2") t'
  | unregistered {username : Bytes} {p : Path} {t₁ t' : FileTree}
      (found : t.find (folderOf username) = some (p, .dir)) (thin : Thinned p t t₁)
      (removed : t₁.rmdir (folderOf username) = some t') :
      Outcome t (.unregister username) (ascii "0") t'
  | opened {username freePort freeServer text : Bytes} {file : Path} {t' : FileTree}
      (registered : t.access (folderOf username) = true)
      (openedTable : t.openAppend conectadosTxt = some (file, text, t')) :
      Outcome t (.connect username freePort freeServer) (ascii "2") t'
  | connected {username freePort freeServer text : Bytes} {file : Path} {t₁ : FileTree}
      (registered : t.access (folderOf username) = true)
      (openedTable : t.openAppend conectadosTxt = some (file, text, t₁))
      (free : scanWords 256 username (words text) = some false) :
      Outcome t (.connect username freePort freeServer) (ascii "0")
        (t₁.append file (tableEntry username freeServer freePort))
  | tried {username res : Bytes} {t' : FileTree} (refused : res = ascii "1" ∨ res = ascii "3")
      (temp : TempTried t t') : Outcome t (.disconnect username) res t'
  | swapped {username text : Bytes} {t' : FileTree} (swap : SwapTried username text t t') :
      Outcome t (.disconnect username)
        (if matchesSome username text then ascii "0" else ascii "2") t'
  | published {username fileName description : Bytes} {t' : FileTree}
      (publication : Published username fileName description t t') :
      Outcome t (.publish username fileName description) (ascii "0") t'
  | deleted {username fileName : Bytes} {t' : FileTree}
      (registered : t.access (folderOf username) = true)
      (removed : t.remove (fileOf (folderOf username) fileName) = some t') :
      Outcome t (.delete username fileName) (ascii "0") t'

theorem answer_ok {op : Op Bytes} {s s' : Sys} {reply : Reply}
    (ran : (answer op).run s = .ok reply s') : op.run s = .ok reply.res s' := by
  obtain ⟨res, s₁, ran, finished⟩ := bind_ok.mp ran
  obtain ⟨rfl, rfl⟩ := pure_ok.mp finished
  exact ran

theorem run_answer_ok {op : Op Bytes} {s s' : Sys} {res : Bytes}
    (ran : op.run s = .ok res s') :
    (answer op).run s = .ok ⟨res, none, none⟩ s' := by
  rw [answer, EStateM.run_bind, ran]
  rfl

theorem stopped_answer (op : Op Bytes) (s : Sys) : stopped ((answer op).run s) = stopped (op.run s) := by
  rw [answer, EStateM.run_bind]
  cases op.run s <;> rfl

theorem run_answer_error {op : Op Bytes} {s s' : Sys} {e : Undefined}
    (ran : op.run s = .error e s') :
    (answer op).run s = .error e s' := by
  rw [answer, EStateM.run_bind, ran]

theorem serve_ok {request : Request} {s s' : Sys} {reply : Reply}
    (ran : (serve request).run s = .ok reply s') :
    Outcome s.tree request reply.res s'.tree := by
  cases request with
  | register username =>
      rcases registerServ_ok (answer_ok ran) with ⟨refused, same⟩ | ⟨zero, made⟩
      · rw [same]
        exact .unchanged fun absurdity => absurd absurdity refused
      · rw [zero]
        exact .registered made
  | unregister username =>
      rcases unregisterServ_ok (answer_ok ran) with ⟨one, same⟩ | ⟨p, t₁, found, thin, rest⟩
      · rw [same, one]
        exact .unchanged fun absurdity => absurd absurdity (by decide)
      · rcases rest with ⟨two, same⟩ | ⟨zero, removed⟩
        · rw [two, same]
          exact .thinned found thin
        · rw [zero]
          exact .unregistered found thin removed
  | connect username freePort freeServer =>
      rcases connectServ_ok (answer_ok ran) with ⟨one, same⟩ | ⟨registered, file, text, t₁, opened,
        ⟨two, same⟩ | ⟨zero, free, same⟩⟩
      · rw [same, one]
        exact .unchanged fun absurdity => absurd absurdity (by decide)
      · rw [two, same]
        exact .opened registered opened
      · rw [zero, same]
        exact .connected registered opened free
  | disconnect username =>
      rcases disconnectServ_ok (answer_ok ran) with ⟨refused, temp⟩ | ⟨text, res, swap⟩
      · exact .tried refused temp
      · rw [res]
        exact .swapped swap
  | publish username fileName description =>
      rcases publishServ_ok (answer_ok ran) with ⟨refused, same⟩ | ⟨zero, publication⟩
      · rw [same]
        exact .unchanged fun absurdity => absurd absurdity refused
      · rw [zero]
        exact .published publication
  | delete username fileName =>
      rcases deleteServ_ok (answer_ok ran) with ⟨refused, same⟩ | ⟨zero, registered, removed⟩
      · rw [same]
        exact .unchanged fun absurdity => absurd absurdity refused
      · rw [zero]
        exact .deleted registered removed
  | listUsers username =>
      obtain ⟨listed, s₁, ran, finished⟩ := bind_ok.mp ran
      obtain ⟨-, rfl⟩ := pure_ok.mp finished
      rw [listUsersServ_ok ran]
      exact .unchanged fun _ => trivial
  | listContent username usernameFolder =>
      obtain ⟨listed, s₁, ran, finished⟩ := bind_ok.mp ran
      obtain ⟨-, rfl⟩ := pure_ok.mp finished
      rw [listContentServ_ok ran]
      exact .unchanged fun _ => trivial

theorem serves_outcome {t t' : FileTree} {event : Request × Reply} (served : Serves t event t') :
    Outcome t event.1 event.2.res t' := by
  obtain ⟨_, s, s', rfl, ran, rfl⟩ := served
  exact serve_ok ran

section Outcomes
variable {t t' : FileTree} {request : Request} {res : Bytes}

theorem append_cwd (t : FileTree) (p : Path) (text : Bytes) : (t.append p text).cwd = t.cwd :=
  (append_changesOnly t p text).cwd

theorem outcome_cwd (outcome : Outcome t request res t') : t'.cwd = t.cwd := by
  cases outcome with
  | unchanged => rfl
  | registered made =>
      obtain ⟨_, _, _, _, only⟩ := mkdir_some made
      exact only.cwd
  | thinned found thin => exact thin.dirs.cwd
  | unregistered found thin removed =>
      obtain ⟨_, _, _, _, only⟩ := rmdir_some removed
      exact only.cwd.trans thin.dirs.cwd
  | opened registered openedTable => exact (openAppend_some openedTable).2.2.1.cwd
  | connected registered openedTable free =>
      rw [append_cwd]
      exact (openAppend_some openedTable).2.2.1.cwd
  | tried refused temp =>
      rcases temp with rfl | ⟨q, created⟩
      · rfl
      · exact (openWrite_some created).2.2.cwd
  | swapped swap => exact swap.cwd
  | published publication =>
      obtain ⟨q, t₁, created, rfl⟩ := publication.written
      rw [append_cwd]
      exact (openWrite_some created).2.2.cwd
  | deleted registered removed =>
      obtain ⟨_, _, _, _, _, only⟩ := remove_some removed
      exact only.cwd

theorem table_of_node_eq (cwd : t'.cwd = t.cwd) (same : t'.node (tablePath t) = t.node (tablePath t)) :
    table t' = table t := by
  rw [table, table, tablePath_congr cwd, same]

theorem table_of_node_none (cwd : t'.cwd = t.cwd) (gone : t'.node (tablePath t) = none) :
    table t' = none := by
  rw [table, tablePath_congr cwd, gone]

theorem table_of_node_dir (cwd : t'.cwd = t.cwd) (dir : t'.node (tablePath t) = some .dir) :
    table t' = none := by
  rw [table, tablePath_congr cwd, dir]

theorem table_of_node_file (cwd : t'.cwd = t.cwd) {content : Bytes}
    (here : t'.node (tablePath t) = some (.file content)) : table t' = some content := by
  rw [table, tablePath_congr cwd, here]

theorem table_of_created {q : Path} {text : Bytes} (here : table t = some text)
    (absent : t.node q = none) (only : ChangesOnly q t t') : table t' = some text := by
  rw [← here]
  refine table_of_node_eq only.cwd (only.others _ ?_)
  rintro rfl
  rw [table_eq_some.mp here] at absent
  cases absent

theorem openAppend_table {file : Path} {text : Bytes} {t₁ : FileTree}
    (opened : t.openAppend conectadosTxt = some (file, text, t₁)) :
    Rooted t ∧ file = tablePath t ∧ t₁.node (tablePath t) = some (.file text) ∧
      ChangesOnly (tablePath t) t t₁ ∧ (table t = some text ∨ table t = none ∧ text = []) := by
  obtain ⟨free, now, only, before⟩ := openAppend_some opened
  have resolved := (creatable_some free).1
  rw [conectadosTxt_eq] at resolved
  have rooted := rooted_of_resolve resolved
  rw [creatable_table rooted] at free
  split at free
  · cases free
    refine ⟨rooted, rfl, now, only, ?_⟩
    rcases before with here | ⟨gone, empty⟩
    · exact Or.inl (table_eq_some.mpr here)
    · exact Or.inr ⟨table_of_node_none rfl gone, empty⟩
  · contradiction

theorem published_node {username fileName description : Bytes}
    (publication : Published username fileName description t t') :
    ∃ q, t.resolve (fileOf (folderOf username) fileName) = some q ∧ t.node q = none ∧
      t'.node q = some (.file (description ++ [newline])) ∧ ChangesOnly q t t' := by
  obtain ⟨q, t₁, created, rfl⟩ := publication.written
  obtain ⟨free, now, only⟩ := openWrite_some created
  obtain ⟨resolved, notDir, _⟩ := creatable_some free
  refine ⟨q, resolved, ?_, node_append now _, only.trans (append_changesOnly _ _ _)⟩
  have absent : t.find (fileOf (folderOf username) fileName) = none := by
    simpa [FileTree.access] using publication.fresh
  rw [creatable, resolved] at free
  simp only at free
  split at free
  · contradiction
  · rename_i plain
    rw [FileTree.find, resolved, Option.bind_some] at absent
    cases here : t.node q with
    | none => rfl
    | some n =>
        rw [not_or] at plain
        simp [here, plain.2] at absent

theorem outcome_table (outcome : Outcome t request res t') :
    table t' = table t ∨ table t' = none ∨
      (∃ username freePort freeServer text, request = .connect username freePort freeServer ∧
        (table t = some text ∨ table t = none ∧ text = []) ∧
        t.access (folderOf username) = true ∧
        (table t' = some text ∨ res = ascii "0" ∧
          scanWords 256 username (words text) = some false ∧
          table t' = some (text ++ tableEntry username freeServer freePort))) ∨
      ∃ username text, request = .disconnect username ∧ table t = some text ∧
        table t' = some (kept username text) := by
  have cwd := outcome_cwd outcome
  cases outcome with
  | unchanged => exact Or.inl rfl
  | registered made =>
      obtain ⟨p, _, absent, dir, only⟩ := mkdir_some made
      by_cases here : tablePath t = p
      · rw [← here] at dir
        exact Or.inr (Or.inl (table_of_node_dir cwd dir))
      · exact Or.inl (table_of_node_eq cwd (only.others _ here))
  | thinned found thin =>
      rcases thin.others (tablePath t) with same | ⟨gone, _⟩
      · exact Or.inl (table_of_node_eq cwd same)
      · exact Or.inr (Or.inl (table_of_node_none cwd gone))
  | @unregistered username p t₁ _ found thin removed =>
      obtain ⟨q, _, _, gone, only⟩ := rmdir_some removed
      by_cases here : tablePath t = q
      · rw [← here] at gone
        exact Or.inr (Or.inl (table_of_node_none cwd gone))
      · have later := only.others _ here
        rcases thin.others (tablePath t) with same | ⟨gone, _⟩
        · exact Or.inl (table_of_node_eq cwd (later.trans same))
        · exact Or.inr (Or.inl (table_of_node_none cwd (later.trans gone)))
  | @opened username freePort freeServer text _ _ registered openedTable =>
      obtain ⟨_, _, now, _, before⟩ := openAppend_table openedTable
      exact Or.inr (Or.inr (Or.inl ⟨username, freePort, freeServer, text, rfl, before, registered,
        Or.inl (table_of_node_file cwd now)⟩))
  | @connected username freePort freeServer text _ _ registered openedTable free =>
      obtain ⟨_, rfl, now, _, before⟩ := openAppend_table openedTable
      exact Or.inr (Or.inr (Or.inl ⟨username, freePort, freeServer, text, rfl, before, registered,
        Or.inr ⟨rfl, free, table_of_node_file cwd (node_append now _)⟩⟩))
  | tried refused temp =>
      left
      rcases temp with rfl | ⟨q, created⟩
      · rfl
      · obtain ⟨free, _, only⟩ := openWrite_some created
        have resolved := (creatable_some free).1
        rw [tempTxt_eq] at resolved
        rw [openWrite_temp (rooted_of_resolve resolved) created] at only
        exact table_of_node_eq cwd (only.others _ (tempPath_ne_tablePath t).symm)
  | @swapped username text _ swap =>
      rcases swap.tableNow with same | kept | gone
      · rw [table_of_node_file cwd same, ← swap.before]
        exact Or.inl rfl
      · exact Or.inr (Or.inr (Or.inr ⟨username, text, rfl, swap.before,
          table_of_node_file cwd kept⟩))
      · exact Or.inr (Or.inl (table_of_node_none cwd gone))
  | published publication =>
      obtain ⟨q, _, absent, _, only⟩ := published_node publication
      have rooted := rooted_of_access publication.registered
      have there := publication.tableOpens
      left
      apply table_of_node_eq cwd (only.others _ ?_)
      rintro rfl
      apply there
      rw [openRead, find_table rooted, absent]
      rfl
  | deleted registered removed =>
      obtain ⟨p, _, _, _, gone, only⟩ := remove_some removed
      by_cases here : tablePath t = p
      · rw [← here] at gone
        exact Or.inr (Or.inl (table_of_node_none cwd gone))
      · exact Or.inl (table_of_node_eq cwd (only.others _ here))

/-- How a request changes one node. -/
inductive NodeChange (t t' : FileTree) (q : Path) : Request → Bytes → Prop
  | own {request : Request} {res : Bytes} (place : q = tablePath t ∨ q = tempPath t)
      (notDir : t.node q ≠ some .dir) : NodeChange t t' q request res
  | made {username : Bytes} (resolved : t.resolve (folderOf username) = some q)
      (absent : t.node q = none) : NodeChange t t' q (.register username) (ascii "0")
  | emptied {username res content : Bytes} {p : Path} {name : Name}
      (found : t.find (folderOf username) = some (p, .dir)) (inside : q = p ++ [name])
      (file : t.node q = some (.file content)) (gone : t'.node q = none) :
      NodeChange t t' q (.unregister username) res
  | removed {username res : Bytes} (found : t.find (folderOf username) = some (q, .dir))
      (gone : t'.node q = none) : NodeChange t t' q (.unregister username) res
  | written {username fileName description res : Bytes}
      (resolved : t.resolve (fileOf (folderOf username) fileName) = some q)
      (absent : t.node q = none) : NodeChange t t' q (.publish username fileName description) res
  | deleted {username fileName res : Bytes} {n : Node}
      (found : t.find (fileOf (folderOf username) fileName) = some (q, n))
      (gone : t'.node q = none) : NodeChange t t' q (.delete username fileName) res

/-- Every node is as before, or the request has changed it in one of these ways. -/
theorem outcome_node (outcome : Outcome t request res t') (q : Path) :
    t'.node q = t.node q ∨ NodeChange t t' q request res := by
  have thinned : ∀ {username res : Bytes} {p : Path} {t₁ t₂ : FileTree}, Thinned p t t₁ →
      t.find (folderOf username) = some (p, .dir) → t₂.node q = t₁.node q →
      t₂.node q = t.node q ∨ NodeChange t t₂ q (.unregister username) res := by
    intro username res p t₁ t₂ thin found still
    rcases thin.others q with same | ⟨gone, _, _, inside, file⟩
    · exact Or.inl (still.trans same)
    · exact Or.inr (.emptied found inside file (still.trans gone))
  cases outcome with
  | unchanged => exact Or.inl rfl
  | registered made =>
      obtain ⟨p, resolved, absent, _, only⟩ := mkdir_some made
      rcases only.same_or q with same | rfl
      · exact Or.inl same
      · exact Or.inr (.made resolved absent)
  | thinned found thin => exact thinned thin found rfl
  | unregistered found thin removed =>
      obtain ⟨p, found', _, gone, only⟩ := rmdir_some removed
      rcases only.same_or q with still | rfl
      · exact thinned thin found still
      · have same := (find_node found').1
        rw [thin.dirs.resolve, (find_node found).1, Option.some.injEq] at same
        exact Or.inr (.removed (same ▸ found) gone)
  | opened registered openedTable =>
      obtain ⟨free, _, only, _⟩ := openAppend_some openedTable
      obtain ⟨_, rfl, _⟩ := openAppend_table openedTable
      exact (only.same_or q).imp_right fun same =>
        .own (Or.inl same) (same ▸ (creatable_some free).2.1)
  | connected registered openedTable free =>
      obtain ⟨creatable, _, only, _⟩ := openAppend_some openedTable
      obtain ⟨_, rfl, _⟩ := openAppend_table openedTable
      exact ((only.trans (append_changesOnly _ _ _)).same_or q).imp_right fun same =>
        .own (Or.inl same) (same ▸ (creatable_some creatable).2.1)
  | tried refused temp =>
      rcases temp with rfl | ⟨p, created⟩
      · exact Or.inl rfl
      · obtain ⟨free, _, only⟩ := openWrite_some created
        obtain ⟨resolved, notDir, _⟩ := creatable_some free
        rw [tempTxt_eq] at resolved
        obtain rfl := openWrite_temp (rooted_of_resolve resolved) created
        exact (only.same_or q).imp_right fun same => .own (Or.inr same) (same ▸ notDir)
  | swapped swap =>
      by_cases atTable : q = tablePath t
      · exact Or.inr (.own (Or.inl atTable) (by rw [atTable, table_eq_some.mp swap.before]; simp))
      · by_cases atTemp : q = tempPath t
        · exact Or.inr (.own (Or.inr atTemp) (atTemp ▸ swap.tempBefore))
        · exact Or.inl (swap.others q atTable atTemp)
  | published publication =>
      obtain ⟨p, resolved, absent, _, only⟩ := published_node publication
      rcases only.same_or q with same | rfl
      · exact Or.inl same
      · exact Or.inr (.written resolved absent)
  | deleted registered removed =>
      obtain ⟨p, n, found, _, gone, only⟩ := remove_some removed
      rcases only.same_or q with same | rfl
      · exact Or.inl same
      · exact Or.inr (.deleted found gone)

theorem outcome_dir (outcome : Outcome t request res t') {q : Path} (dir : t.node q = some .dir) :
    t'.node q = some .dir ∨
      (∃ username, request = .unregister username ∧ t.find (folderOf username) = some (q, .dir)) ∨
      ∃ username fileName, request = .delete username fileName ∧
        t.find (fileOf (folderOf username) fileName) = some (q, .dir) := by
  rcases outcome_node outcome q with same | change
  · exact Or.inl (same.trans dir)
  · right
    cases change with
    | own place notDir => exact absurd dir notDir
    | made resolved absent => exact absurd (absent.symm.trans dir) (by simp)
    | emptied found inside file gone => exact absurd (file.symm.trans dir) (by simp)
    | @removed username _ found gone => exact Or.inl ⟨username, rfl, found⟩
    | written resolved absent => exact absurd (absent.symm.trans dir) (by simp)
    | @deleted username fileName _ _ found gone =>
        cases (find_node found).2.symm.trans dir
        exact Or.inr ⟨username, fileName, rfl, found⟩

/-- Where a node appears, and which request put it there. -/
theorem outcome_created (outcome : Outcome t request res t') {q : Path} (absent : t.node q = none)
    (now : t'.node q ≠ none) :
    (∃ username, request = .register username ∧ res = ascii "0" ∧
        t.resolve (folderOf username) = some q) ∨
      (∃ username fileName description, request = .publish username fileName description ∧
        t.resolve (fileOf (folderOf username) fileName) = some q) ∨
      q = tablePath t ∨ q = tempPath t := by
  rcases outcome_node outcome q with same | change
  · exact absurd (same.trans absent) now
  · cases change with
    | own place notDir => exact Or.inr (Or.inr place)
    | @made username resolved _ => exact Or.inl ⟨username, rfl, rfl, resolved⟩
    | emptied found inside file gone => exact absurd gone now
    | removed found gone => exact absurd gone now
    | @written username fileName description _ resolved _ =>
        exact Or.inr (Or.inl ⟨username, fileName, description, rfl, resolved⟩)
    | deleted found gone => exact absurd gone now

end Outcomes

/-! ## The table stays free of NUL bytes -/

theorem mem_tableEntry {b : UInt8} {username freeServer freePort : Bytes}
    (member : b ∈ tableEntry username freeServer freePort) :
    b ∈ username ∨ b ∈ freeServer ∨ b ∈ freePort ∨ b = space ∨ b = newline := by
  simp only [tableEntry, List.mem_append, show ascii " " = [space] by decide,
    show ascii " \n" = [space, newline] by decide, List.mem_cons, List.not_mem_nil, or_false]
    at member
  tauto

theorem mem_kept {b : UInt8} {username text : Bytes} (member : b ∈ kept username text) :
    b ∈ text := by
  rw [kept, List.mem_flatten] at member
  obtain ⟨_, fromPiece, inside⟩ := member
  obtain ⟨piece, chosen, rfl⟩ := List.mem_map.mp fromPiece
  rw [← pieces_flatten 256 (by omega) text, List.mem_flatten]
  exact ⟨piece, (List.mem_filter.mp chosen).1, (List.takeWhile_prefix _).subset inside⟩

def TableClean (t : FileTree) : Prop := ∀ text, table t = some text → (0 : UInt8) ∉ text

theorem serves_tableClean {t t' : FileTree} {event : Request × Reply} (clean : TableClean t)
    (served : Serves t event t') : TableClean t' := by
  have deliverable := served.1
  intro text here
  rcases outcome_table (serves_outcome served) with same | gone | connecting | disconnecting
  · exact clean text (same ▸ here)
  · rw [gone] at here
    cases here
  · obtain ⟨username, freePort, freeServer, before, request, held, _, now⟩ := connecting
    have cleanBefore : (0 : UInt8) ∉ before := by
      rcases held with held | ⟨_, rfl⟩
      · exact clean before held
      · simp
    rcases now with now | ⟨_, _, now⟩
    · rw [now] at here
      cases here
      exact cleanBefore
    · rw [now] at here
      cases here
      rw [List.mem_append]
      rintro (old | entry)
      · exact cleanBefore old
      · rw [request] at deliverable
        rcases mem_tableEntry entry with h | h | h | h | h
        · exact (deliverable username (by simp [Request.fields, Request.username])).1 h
        · exact (deliverable freeServer (by simp [Request.fields, Request.others])).1 h
        · exact (deliverable freePort (by simp [Request.fields, Request.others])).1 h
        · exact absurd h (by decide)
        · exact absurd h (by decide)
  · obtain ⟨username, before, _, held, now⟩ := disconnecting
    rw [now] at here
    cases here
    exact fun member => clean before held (mem_kept member)

theorem reachable_tableClean {t : FileTree} (reached : Reachable t) : TableClean t := by
  obtain ⟨start, started, history, run⟩ := reached
  refine run.invariant (P := fun _ t => TableClean t) ?_ fun clean one => serves_tableClean clean one
  intro text here
  rw [started.2] at here
  cases here
  simp

end DistrApp.Server
