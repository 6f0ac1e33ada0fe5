import DistrApp.Server.Accounts

/-!
# Starting the server again

`main` up to its loop: the socket, and conectados.txt opened with `"w"`.  Where
the loop is reached nobody is connected and the folders are as the last server
left them; where it is not, nothing has changed.  So the directory goes on over
any number of servers, each of them with any schedule, and the sessions end with
the server.
-/

set_option autoImplicit false

namespace DistrApp.Server

open Text FileTree Effects

/-- What the calls of `serverSocket` return; `bind` depends on the port. -/
structure Sockets where
  socket : Int
  bind : Nat → Int
  listen : Int

/-- `serverSocket(INADDR_ANY, port, SOCK_STREAM)`, with `htons(port)`. -/
def serverSocket (net : Sockets) (port : Int) : Int :=
  let sd := net.socket
  -- an error here is returned as descriptor 0
  if sd < 0 then 0
  else if net.bind (port % 65536).toNat = -1 then -1
  else if net.listen = -1 then -1
  else sd

def digits (n : Nat) : Bytes → Nat
  | [] => n
  | b :: rest => if 48 ≤ b ∧ b ≤ 57 then digits (10 * n + (b.toNat - 48)) rest else n

/-- `atoi`, for numbers that fit. -/
def atoi (text : Bytes) : Int :=
  match text.dropWhile isSpace with
  | [] => 0
  | b :: rest =>
      if b = 45 then -(digits 0 rest : Int)
      else if b = 43 then digits 0 rest
      else digits 0 (b :: rest)

/-- `main` returns, or goes on to its loop with this socket. -/
inductive Inicio
  | exits (code : Int)
  | serves (sd : Int)
  deriving DecidableEq

/-- `if (fp != NULL) fclose(fp);` -/
def closeIfOpen : Option Stream → Op Unit
  | some fp => closeHandle fp.id
  | none => pure ()

/-- `main` from the test of the socket to its loop. -/
def emptyTable (sd : Int) : Op Inicio :=
  if sd < 0 then return .exits 0
  else do
    let fp ← fopen conectadosTxt .write
    closeIfOpen fp
    return .serves sd

/-- `main` up to `while (1)`. -/
def mainUntilLoop (argv : List Bytes) (net : Sockets) : Op Inicio :=
  if argv.length ≠ 2 then return .exits (-1)
  else emptyTable (serverSocket net (atoi (argv.getD 1 [])))

/-- The loop is reached: also where there is no socket. -/
def ReachesLoop (argv : List Bytes) (net : Sockets) : Prop :=
  argv.length = 2 ∧ (net.socket < 0 ∨
    net.bind (atoi (argv.getD 1 []) % 65536).toNat ≠ -1 ∧ net.listen ≠ -1)

theorem serverSocket_nonneg (net : Sockets) (port : Int) :
    0 ≤ serverSocket net port ↔
      net.socket < 0 ∨ net.bind (port % 65536).toNat ≠ -1 ∧ net.listen ≠ -1 := by
  simp only [serverSocket]
  split
  · rename_i failed
    simp [failed]
  · rename_i made
    split
    · rename_i refused
      simp [refused, not_lt.mp made]
    · split
      · rename_i _ deaf
        simp [deaf, not_lt.mp made]
      · rename_i bound listens
        simp [bound, listens, not_lt.mp made]

theorem mainUntilLoop_exits {argv : List Bytes} {net : Sockets} (stays : ¬ ReachesLoop argv net)
    (s : Sys) : ∃ code, (mainUntilLoop argv net).run s = .ok (.exits code) s := by
  rw [mainUntilLoop]
  split
  · exact ⟨-1, rfl⟩
  · rename_i two
    refine ⟨0, ?_⟩
    rw [emptyTable, if_pos]
    · rfl
    · by_contra socket
      exact stays ⟨not_not.mp two, (serverSocket_nonneg _ _).mp (not_lt.mp socket)⟩

section Starts
variable {s : Sys} {argv : List Bytes} {net : Sockets}

theorem mainUntilLoop_serves (reaches : ReachesLoop argv net) (calm : s.faults = [])
    (rooted : Rooted s.tree) (inside : s.tree.node (usuarios s.tree) = some .dir)
    (free : s.tree.node (tablePath s.tree) ≠ some .dir) :
    (mainUntilLoop argv net).run s =
      .ok (.serves (serverSocket net (atoi (argv.getD 1 []))))
        ⟨s.tree.put (tablePath s.tree) (.file []), s.faults,
          s.handles ++ [.opened s.handles.length] ++ [.closed s.handles.length]⟩ := by
  have opened : openFile s.tree conectadosTxt .write =
      some (tablePath s.tree, [], s.tree.put (tablePath s.tree) (.file [])) := by
    simp only [openFile, FileTree.openWrite]
    rw [creatable_table rooted, if_pos ⟨inside, free⟩]
    rfl
  have socket := (serverSocket_nonneg net (atoi (argv.getD 1 []))).mpr reaches.2
  rw [mainUntilLoop, if_neg (not_not.mpr reaches.1), emptyTable, if_neg (not_lt.mpr socket),
    run_fopen calm, opened]
  rfl

structure Opened (users : Users) (s : Sys) : Prop where
  calm : s.faults = []
  represents : Represents s.tree users
  bare : table s.tree = some []

theorem Opened.tidy {users : Users} (opened : Opened users s) : Tidy s.tree := by
  constructor <;> intro text here <;> rw [opened.bare] at here <;> cases here
  · simp
  · exact shortWords_nil

theorem opened_start {users : Users} (calm : s.faults = []) (rep : Represents s.tree users)
    (reaches : ReachesLoop argv net) :
    ∃ sd s', (mainUntilLoop argv net).run s = .ok (.serves sd) s' ∧ Opened users s' := by
  obtain ⟨text, here⟩ := rep.tableThere
  have file := table_eq_some.mp here
  have inside := usuarios_dir rep
  have ran := mainUntilLoop_serves reaches calm rep.rooted inside (by rw [file]; simp)
  have opened : s.tree.openWrite conectadosTxt =
      some (tablePath s.tree, s.tree.put (tablePath s.tree) (.file [])) := by
    rw [FileTree.openWrite, creatable_table rep.rooted, if_pos ⟨inside, by rw [file]; simp⟩]
    rfl
  obtain ⟨_, emptied, only⟩ := openWrite_some opened
  refine ⟨_, _, ran, calm, ?_, table_of_node_file only.cwd emptied⟩
  refine rep.own_files only.cwd ⟨[], emptied⟩ ?_ fun q notTable _ => only.others q notTable
  rw [only.others _ (tempPath_ne_tablePath s.tree)]
  exact rep.tempFree

theorem mainUntilLoop_cases {users : Users} {s' : Sys} (calm : s.faults = [])
    (rep : Represents s.tree users) {inicio : Inicio}
    (ran : (mainUntilLoop argv net).run s = .ok inicio s') :
    (∃ code, inicio = .exits code) ∧ s' = s ∨ (∃ sd, inicio = .serves sd) ∧ Opened users s' := by
  by_cases reaches : ReachesLoop argv net
  · obtain ⟨sd, s'', ran', opened⟩ := opened_start calm rep reaches
    rw [ran] at ran'
    cases ran'
    exact Or.inr ⟨⟨sd, rfl⟩, opened⟩
  · obtain ⟨code, ran'⟩ := mainUntilLoop_exits reaches s
    rw [ran] at ran'
    cases ran'
    exact Or.inl ⟨⟨code, rfl⟩, rfl⟩

end Starts

/-! ## One server after another -/

/-- Servers one after the other, with the requests of each: one that does not
get to its loop, or one that does and is stopped while no handler is in its
section. -/
inductive Lives (Fit : Request → Prop) (start : Sys) : List History → Sys → Prop
  | none : Lives Fit start [] start
  | fails {servers : List History} {s s' : Sys} (argv : List Bytes) (net : Sockets) (code : Int) :
      Lives Fit start servers s → (mainUntilLoop argv net).run s = .ok (.exits code) s' →
      Lives Fit start servers s'
  | serves {servers : List History} {s s' : Sys} (argv : List Bytes) (net : Sockets) (sd : Int)
      (peers : AcceptLoop.Descriptor → Concurrent.Peer) (state : Concurrent.State)
      (events : List (Option (Request × Reply))) :
      Lives Fit start servers s → (mainUntilLoop argv net).run s = .ok (.serves sd) s' →
      Concurrent.Reachable peers s' state → state.pool.Empty →
      Episodes s' state.pool.ended events state.pool.shared →
      (∀ e ∈ state.pool.ended, ∀ r ∈ (stopped e.2).served, Fit r) →
      Lives Fit start (servers ++ [events.reduceOption]) state.pool.shared

theorem lives_inStep {start s : Sys} {servers : List History} (bare : EmptyStore start.tree)
    (calm : start.faults = []) (lives : Lives Moderate start servers s) :
    InStep s servers.flatten := by
  induction lives with
  | none => exact inStep_empty bare calm
  | fails argv net code _ ran ih =>
      rcases mainUntilLoop_cases ih.calm ih.represents ran with ⟨_, rfl⟩ | ⟨⟨_, absurdity⟩, _⟩
      · exact ih
      · cases absurdity
  | serves argv net sd peers state events _ ran _ _ episodes moderate ih =>
      rcases mainUntilLoop_cases ih.calm ih.represents ran with ⟨⟨_, absurdity⟩, _⟩ | ⟨_, opened⟩
      · cases absurdity
      · rw [List.flatten_append, List.flatten_singleton]
        have started : InStep _ _ := ⟨opened.calm, opened.tidy, opened.represents, ih.answered⟩
        exact episodes.inStep started moderate

/-- Over any number of servers, each with any schedule, the folders are the
directory after all requests, every reply was the one it demands, and the next
server that gets to its loop starts with nobody connected. -/
theorem lives_refine_directory {start s : Sys} {servers : List History}
    (bare : EmptyStore start.tree) (calm : start.faults = [])
    (lives : Lives Moderate start servers s) :
    Represents s.tree (usersAfter servers.flatten) ∧ AnsweredAlong servers.flatten ∧
      ∀ argv net, ReachesLoop argv net → ∃ sd s', (mainUntilLoop argv net).run s = .ok (.serves sd) s' ∧
        Represents s'.tree (usersAfter servers.flatten) ∧ table s'.tree = some [] := by
  have inStep := lives_inStep bare calm lives
  refine ⟨inStep.represents, inStep.answered, fun argv net reaches => ?_⟩
  obtain ⟨sd, s', ran, opened⟩ := opened_start inStep.calm inStep.represents reaches
  exact ⟨sd, s', ran, opened.represents, opened.bare⟩

/-! ## The accounts over several servers -/

def sessionless (m : Bytes → Cuenta) : Bytes → Cuenta := fun u => { m u with session := none }

def accountsOver (servers : List History) : Bytes → Cuenta :=
  servers.foldl (fun m history => accountsFrom (sessionless m) history) nobody

section Accounts
variable {V : Vocabulary} {start s : Sys} {m : Bytes → Cuenta} {servers : List History}

theorem Opened.attends (opened : Opened (filesOf m) s) : Attends V s (sessionless m) :=
  ⟨opened.calm, opened.tidy, opened.represents, [],
    ⟨opened.bare, fun _ absurdity => (by cases absurdity), List.nodup_nil⟩, rfl⟩

/-- Over any number of servers, each with any schedule, the store keeps the
accounts: a new server finds the files and no session, and answers from there. -/
theorem lives_keep_accounts (bare : EmptyStore start.tree) (calm : start.faults = [])
    (lives : Lives (Understood V) start servers s) :
    Attends V s (accountsOver servers) ∧
      (∀ past history later, servers = past ++ history :: later →
        ToldFrom (sessionless (accountsOver past)) history) ∧
      ∀ argv net, ReachesLoop argv net → ∃ sd s', (mainUntilLoop argv net).run s = .ok (.serves sd) s' ∧
        Attends V s' (sessionless (accountsOver servers)) := by
  have both : Attends V s (accountsOver servers) ∧
      ∀ past history later, servers = past ++ history :: later →
        ToldFrom (sessionless (accountsOver past)) history := by
    induction lives with
    | none => exact ⟨attends_nobody bare calm, fun _ _ _ split => by simp at split⟩
    | fails argv net code _ ran ih =>
        rcases mainUntilLoop_cases ih.1.calm ih.1.represents ran with
          ⟨_, rfl⟩ | ⟨⟨_, absurdity⟩, _⟩
        · exact ih
        · cases absurdity
    | serves argv net sd peers state events _ ran _ _ episodes understood ih =>
        rcases mainUntilLoop_cases ih.1.calm ih.1.represents ran with
          ⟨⟨_, absurdity⟩, _⟩ | ⟨_, opened⟩
        · cases absurdity
        · obtain ⟨later, told⟩ := episodes.attends opened.attends understood
          refine ⟨?_, along_snoc
            (P := fun past history => ToldFrom (sessionless (accountsOver past)) history) ih.2 told⟩
          rw [accountsOver, List.foldl_append]
          exact later
  refine ⟨both.1, both.2, fun argv net reaches => ?_⟩
  obtain ⟨sd, s', ran, opened⟩ := opened_start both.1.calm both.1.represents reaches
  exact ⟨sd, s', ran, opened.attends⟩

end Accounts

/-! ## Two servers -/

def argumentos : List Bytes := [ascii "./servidor", ascii "4200"]

def unused : Sockets := ⟨3, fun _ => 0, 0⟩

/-- The store as a server started on `s` finds it at its loop. -/
def loopOn (s : Sys) : Sys := stopped ((mainUntilLoop argumentos unused).run s)

/-- The store after that server has served the connections of ana and bob. -/
def servedOn (s : Sys) : Sys :=
  (Concurrent.sections (Concurrent.scripted Concurrent.anaScript)).leaves (loopOn s)
    (Concurrent.scriptTurns Concurrent.anaScript (loopOn s))

theorem run_loopOn {s : Sys} {users : Users} (calm : s.faults = [])
    (rep : Represents s.tree users) :
    ∃ sd, (mainUntilLoop argumentos unused).run s = .ok (.serves sd) (loopOn s) := by
  have reaches : ReachesLoop argumentos unused := ⟨rfl, Or.inr ⟨by decide, by decide⟩⟩
  obtain ⟨sd, s', ran, _⟩ := opened_start calm rep reaches
  rw [loopOn, ran]
  exact ⟨sd, rfl⟩

theorem lives_next {Fit : Request → Prop} (fit : ∀ r ∈ Concurrent.anaRequests, Fit r)
    {start s : Sys} {servers : List History} (lives : Lives Fit start servers s)
    (started : ∃ sd, (mainUntilLoop argumentos unused).run s = .ok (.serves sd) (loopOn s))
    (plays : Concurrent.Plays Concurrent.anaScript Concurrent.anaRequests (loopOn s)) :
    ∃ history, history.map Prod.fst = Concurrent.anaRequests ∧
      Lives Fit start (servers ++ [history]) (servedOn s) := by
  obtain ⟨state, reached, empty, ended⟩ := plays.reached
  have inv := Concurrent.inv_reachable reached
  obtain ⟨last, serial⟩ := inv.serial
  obtain ⟨events, episodes⟩ := episodes_inTurn serial.inTurn inv.defined
  have leaves := serial.inTurn.leaves
  have served := plays.each fit
  have requests := episodes.requests
  rw [← serial.idle empty] at episodes leaves
  rw [← ended] at served
  rw [ended, plays.served] at requests
  rw [ended] at leaves
  obtain ⟨sd, ran⟩ := started
  refine ⟨events.reduceOption, requests, ?_⟩
  rw [servedOn, ← leaves]
  exact .serves argumentos unused sd _ _ events lives ran reached empty episodes served

theorem run_without_port : (mainUntilLoop [] unused).run ⟨firstStart, [], []⟩ =
    .ok (.exits (-1)) ⟨firstStart, [], []⟩ := by
  rw [mainUntilLoop, if_pos (by decide)]
  rfl

theorem plays_firstLoop :
    Concurrent.Plays Concurrent.anaScript Concurrent.anaRequests (loopOn ⟨firstStart, [], []⟩) := by
  decide +kernel

/-- The second server finds both users and the published file, and nobody connected. -/
theorem plays_secondLoop : Concurrent.Plays Concurrent.anaScript Concurrent.anaRequests
    (loopOn (servedOn ⟨firstStart, [], []⟩)) := by
  decide +kernel

theorem lives_first {Fit : Request → Prop} (fit : ∀ r ∈ Concurrent.anaRequests, Fit r) :
    ∃ history, history.map Prod.fst = Concurrent.anaRequests ∧
      Lives Fit ⟨firstStart, [], []⟩ [history] (servedOn ⟨firstStart, [], []⟩) :=
  lives_next fit (.fails [] unused (-1) .none run_without_port)
    (run_loopOn rfl (represents_empty emptyStore_firstStart)) plays_firstLoop

theorem lives_ana {Fit : Request → Prop} (fit : ∀ r ∈ Concurrent.anaRequests, Fit r) :
    ∃ first second s, first.map Prod.fst = Concurrent.anaRequests ∧
      second.map Prod.fst = Concurrent.anaRequests ∧
      Lives Fit ⟨firstStart, [], []⟩ [first, second] s := by
  obtain ⟨_, _, before⟩ := lives_first moderate_anaRequests
  have inStep := lives_inStep emptyStore_firstStart rfl before
  obtain ⟨first, requests, lives⟩ := lives_first fit
  obtain ⟨second, requests', lives'⟩ := lives_next fit lives
    (run_loopOn inStep.calm inStep.represents) plays_secondLoop
  exact ⟨first, second, _, requests, requests', lives'⟩

theorem lives_refine_directory_ana : ∃ first second s,
    first.map Prod.fst = Concurrent.anaRequests ∧ second.map Prod.fst = Concurrent.anaRequests ∧
    Represents s.tree (usersAfter [first, second].flatten) ∧
    AnsweredAlong [first, second].flatten ∧
    ∀ argv net, ReachesLoop argv net → ∃ sd s', (mainUntilLoop argv net).run s = .ok (.serves sd) s' ∧
      Represents s'.tree (usersAfter [first, second].flatten) ∧ table s'.tree = some [] := by
  obtain ⟨first, second, s, requests, requests', lives⟩ := lives_ana moderate_anaRequests
  exact ⟨first, second, s, requests, requests',
    lives_refine_directory emptyStore_firstStart rfl lives⟩

theorem lives_keep_accounts_ana : ∃ first second s,
    first.map Prod.fst = Concurrent.anaRequests ∧ second.map Prod.fst = Concurrent.anaRequests ∧
    Attends anaAndBob s (accountsOver [first, second]) ∧
    (∀ past other later, [first, second] = past ++ other :: later →
      ToldFrom (sessionless (accountsOver past)) other) ∧
    ∀ argv net, ReachesLoop argv net → ∃ sd s', (mainUntilLoop argv net).run s = .ok (.serves sd) s' ∧
      Attends anaAndBob s' (sessionless (accountsOver [first, second])) := by
  obtain ⟨first, second, s, requests, requests', lives⟩ := lives_ana understood_anaRequests
  exact ⟨first, second, s, requests, requests',
    lives_keep_accounts emptyStore_firstStart rfl lives⟩

end DistrApp.Server
