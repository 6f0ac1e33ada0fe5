import DistrApp.Server.Sessions

/-!
# The accounts under every schedule

Along the connections of a concurrent run the store keeps the accounts, and
every client is told what its request finds in the account it is about.  An
account changes only with the requests about it: whoever else comes, and in
whatever order the threads run, a user hears the same.
-/

set_option autoImplicit false

namespace DistrApp.Server

open Text FileTree Effects

/-- Each request is answered from the accounts that the ones before it leave. -/
def ToldFrom (m : Bytes → Cuenta) (history : History) : Prop :=
  ∀ past event later, history = past ++ event :: later → Told (accountsFrom m past) event

/-- The request fits, and its names are in the vocabulary. -/
def Understood (V : Vocabulary) (request : Request) : Prop := Moderate request ∧ V.Speaks request

def nobody : Bytes → Cuenta := fun _ => Account.vacant

theorem filesOf_nobody (history : History) :
    filesOf (accountsFrom nobody history) = usersAfter history :=
  filesOf_accountsFrom nobody history

section Runs
variable {V : Vocabulary} {s start last : Sys} {m : Bytes → Cuenta} {history : History}
  {ended : List (Concurrent.Key × EStateM.Result Stop Conn Unit)}
  {events : List (Option (Request × Reply))}

theorem attends_nobody (bare : EmptyStore start.tree) (calm : start.faults = []) :
    Attends V start nobody := by
  refine ⟨calm, tidy_started bare.started, represents_empty bare, [],
    ⟨bare.started.2, ?_, List.nodup_nil⟩, rfl⟩
  exact fun _ absurdity => by cases absurdity

theorem Attends.same_tree (attends : Attends V s m) {s' : Sys} (same : s'.tree = s.tree)
    (calm : s.faults = [] → s'.faults = []) : Attends V s' m := by
  obtain ⟨none, tidy, rep, seats, seated, sessions⟩ := attends
  exact ⟨calm none, same ▸ tidy, same ▸ rep, seats, same ▸ seated, sessions⟩

theorem Attends.episode (attends : Attends V s (accountsFrom m history)) (told : ToldFrom m history)
    {c : Conn} {event : Option (Request × Reply)} (episode : Episode s c event)
    (understood : ∀ r ∈ c.served, Understood V r) :
    Attends V c.sys (accountsFrom m (history ++ event.toList)) ∧
      ToldFrom m (history ++ event.toList) := by
  cases episode with
  | quiet _ _ _ same calm =>
      rw [Option.toList_none, List.append_nil]
      exact ⟨attends.same_tree same calm, told⟩
  | served op campos reply s' deliverable ran served _ _ same calm =>
      obtain ⟨moderate, speaks⟩ :=
        understood (op.request campos) (by rw [served]; exact List.mem_singleton.mpr rfl)
      obtain ⟨later, answer⟩ := attends.step deliverable moderate speaks ran
      rw [Option.toList_some, accountsFrom_snoc]
      exact ⟨later.same_tree same calm,
        along_snoc (P := fun past event => Told (accountsFrom m past) event) told answer⟩

theorem Episodes.attends (attends : Attends V start m) (episodes : Episodes start ended events last)
    (understood : ∀ e ∈ ended, ∀ r ∈ (stopped e.2).served, Understood V r) :
    Attends V last (accountsFrom m events.reduceOption) ∧ ToldFrom m events.reduceOption := by
  induction episodes with
  | nobody => exact ⟨attends, fun _ _ _ split => by simp at split⟩
  | next key result event _ episode ih =>
      obtain ⟨before, told⟩ := ih fun e member => understood e (List.mem_append_left _ member)
      have later := before.episode told episode
        (understood (key, result) (List.mem_append_right _ (List.mem_singleton.mpr rfl)))
      rw [List.reduceOption_append]
      cases event with
      | none => simpa using later
      | some event => exact later

/-! ## One request that arrives whole -/

theorem Attends.serves (attends : Attends V s m) {request : Request}
    (deliverable : request.Deliverable) (understood : Understood V request) :
    ∃ reply s', (serve request).run s = .ok reply s' ∧ Attends V s' (cuentas.apply m request) ∧
      Told m (request, reply) := by
  obtain ⟨reply, s', ran, -⟩ :=
    simulates attends.calm attends.represents (fits_of_tidy attends.tidy understood.1)
  exact ⟨reply, s', ran, attends.step deliverable understood.1 understood.2 ran⟩

theorem Attends.replies (attends : Attends V s m) {env : Surroundings} {op : Operacion}
    {campos : List Bytes} {fecha texto more : Bytes} {input : List ReadResult}
    {writes : List WriteResult} (asked : Asked env op campos fecha more input writes)
    (understood : Understood V (op.request campos))
    (recorded : textoRpc (op.request campos) fecha = pure texto)
    (last : ∀ reply, listar env (op.request campos) reply = pure ()) :
    ∃ c, (cuerpo env).run (Conn.accepted s input writes) = .ok () c ∧
      Attends V c.sys (cuentas.apply m (op.request campos)) ∧
      c.sent = [cuentas.tells (op.request campos) (m (op.request campos).holder) ++ [0]] := by
  obtain ⟨reply, s', ran, later, told⟩ :=
    attends.serves (deliverable_of_clean op fun campo member =>
      (asked.plain campo (List.mem_append_left _ member)).1) understood
  obtain ⟨c, talking, body⟩ := asked.run ran later.calm recorded
  rw [last] at body
  refine ⟨c, body, later.same_tree talking.tree fun _ => talking.calm, ?_⟩
  rw [talking.sent]
  exact congrArg (fun res => [res ++ [0]]) told.res

theorem Attends.passing (attends : Attends V s m) {c : Conn} {event : Option (Request × Reply)}
    (episode : Episode s c event) (understood : ∀ r ∈ c.served, Understood V r)
    (seated : ∀ r ∈ c.served, (∀ username freePort freeServer,
      r ≠ .connect username freePort freeServer) ∧ ∀ username, r ≠ .disconnect username) :
    ∃ m', Attends V c.sys m' ∧ sessionsOf m' = sessionsOf m := by
  cases episode with
  | quiet _ _ _ same calm => exact ⟨m, attends.same_tree same calm, rfl⟩
  | served op campos reply s' deliverable ran served _ _ same calm =>
      have here : op.request campos ∈ c.served := by
        rw [served]
        exact List.mem_singleton.mpr rfl
      obtain ⟨moderate, speaks⟩ := understood _ here
      obtain ⟨later, -⟩ := attends.step deliverable moderate speaks ran
      exact ⟨_, later.same_tree same calm, sessionsOf_apply (seated _ here).1 (seated _ here).2⟩

end Runs

section Schedules
variable {V W : Vocabulary} {peers others : AcceptLoop.Descriptor → Concurrent.Peer}
  {start start' : Sys} {s s' : Concurrent.State}

/-- On every schedule the connections leave the store with the accounts that
their requests make in the order of `accept`, the table with one entry for each
user who is connected; and each reply is the one that the account calls for. -/
theorem schedule_keeps_accounts (reached : Concurrent.Reachable peers start s)
    (bare : EmptyStore start.tree) (calm : start.faults = [])
    (understood : ∀ e ∈ s.pool.ended, ∀ r ∈ (stopped e.2).served, Understood V r) :
    ∃ events last, Episodes start s.pool.ended events last ∧
      (s.pool.Empty → s.pool.shared = last) ∧
      Attends V last (accountsFrom nobody events.reduceOption) ∧
      ToldFrom nobody events.reduceOption := by
  have inv := Concurrent.inv_reachable reached
  obtain ⟨last, serial⟩ := inv.serial
  obtain ⟨events, episodes⟩ := episodes_inTurn serial.inTurn inv.defined
  exact ⟨events, last, episodes, serial.idle,
    episodes.attends (attends_nobody bare calm) understood⟩

/-- What a section of a concurrent run finds: the accounts that the ones before it,
in the order of `accept`, have left. -/
theorem attends_before (reached : Concurrent.Reachable peers start s)
    (bare : EmptyStore start.tree) (calm : start.faults = [])
    (understood : ∀ e ∈ s.pool.ended, ∀ r ∈ (stopped e.2).served, Understood V r)
    {before after : List (Concurrent.Key × EStateM.Result Stop Conn Unit)} {key : Concurrent.Key}
    {result : EStateM.Result Stop Conn Unit}
    (split : s.pool.ended = before ++ (key, result) :: after) :
    ∃ events middle, Episodes start before events middle ∧
      Attends V middle (accountsFrom nobody events.reduceOption) ∧
      result = (Concurrent.sections peers).alone key middle := by
  have inv := Concurrent.inv_reachable reached
  obtain ⟨last, serial⟩ := inv.serial
  obtain ⟨middle, inTurn, same⟩ := serial.inTurn.at split
  have earlier : ∀ e ∈ before, e ∈ s.pool.ended := fun e member => by
    rw [split]
    exact List.mem_append_left _ member
  obtain ⟨events, episodes⟩ :=
    episodes_inTurn inTurn fun e member => inv.defined e (earlier e member)
  exact ⟨events, middle, episodes, (episodes.attends (attends_nobody bare calm) fun e member =>
    understood e (earlier e member)).1, same⟩

def anaAndBob : Vocabulary :=
  .ofNames {ascii "ana", ascii "bob"}
    {(ascii "10.0.0.1", ascii "4001"), (ascii "10.0.0.2", ascii "4002")}
    (by rintro u (rfl | rfl) <;> exact ⟨by decide, by decide +kernel⟩)
    (by rintro u (rfl | rfl) v (rfl | rfl) <;> decide +kernel)
    (by rintro u (rfl | rfl) place (rfl | rfl) <;> decide +kernel)

theorem understood_anaRequests : ∀ r ∈ Concurrent.anaRequests, Understood anaAndBob r := by
  intro r member
  refine ⟨moderate_anaRequests r member, ?_⟩
  simp only [Concurrent.anaRequests, List.mem_cons, List.not_mem_nil, or_false] at member
  rcases member with rfl | rfl | rfl | rfl | rfl | rfl
  · trivial
  · trivial
  · exact ⟨Or.inl rfl, Or.inl rfl⟩
  · exact ⟨Or.inr rfl, Or.inr rfl⟩
  · trivial
  · trivial

theorem schedule_keeps_accounts_ana : ∃ s : Concurrent.State,
    s.pool.ended = Concurrent.scriptTurns Concurrent.anaScript ⟨firstStart, [], []⟩ ∧
      ∃ events last, Episodes ⟨firstStart, [], []⟩ s.pool.ended events last ∧
        (s.pool.Empty → s.pool.shared = last) ∧
        Attends anaAndBob last (accountsFrom nobody events.reduceOption) ∧
        ToldFrom nobody events.reduceOption := by
  obtain ⟨s, reached, _, ended⟩ := Concurrent.plays_ana.reached
  refine ⟨s, ended, schedule_keeps_accounts reached emptyStore_firstStart rfl ?_⟩
  rw [ended]
  exact Concurrent.plays_ana.each understood_anaRequests

theorem told_congr {past past' : History} {request : Request} {reply reply' : Reply}
    (told : Told (accountsFrom nobody past) (request, reply))
    (told' : Told (accountsFrom nobody past') (request, reply'))
    (own : cuentas.about request.holder (past.map Prod.fst) =
      cuentas.about request.holder (past'.map Prod.fst)) :
    reply.res = reply'.res ∧ (∀ username usernameFolder,
      request = .listContent username usernameFolder → reply.res = ascii "0" →
        reply.res2 = reply'.res2) := by
  have same :
      accountsFrom nobody past request.holder = accountsFrom nobody past' request.holder := by
    rw [accountsFrom, accountsFrom, Keyed.Machine.after_eq_foldl, Keyed.Machine.after_eq_foldl, own]
  refine ⟨?_, fun username folder here done => ?_⟩
  · rw [told.res, told'.res]
    exact Keyed.Machine.answer_congr rfl own
  · subst here
    have files : filesOf (accountsFrom nobody past) folder =
        filesOf (accountsFrom nobody past') folder := congrArg Account.files same
    cases held : filesOf (accountsFrom nobody past) folder with
    | none =>
        have res : reply.res = if (filesOf (accountsFrom nobody past) folder).isSome then ascii "0"
          else ascii "Usuario no registrado\n" := told.res
        rw [held, done] at res
        exact absurd res (by decide)
    | some content =>
        rw [told.content username folder content rfl held,
          told'.content username folder content rfl (files ▸ held)]

/-- Two servers with any schedules and any other users: who has asked the same
about an account on both of them hears the same about it. -/
theorem own_requests_decide (reached : Concurrent.Reachable peers start s)
    (bare : EmptyStore start.tree) (calm : start.faults = [])
    (understood : ∀ e ∈ s.pool.ended, ∀ r ∈ (stopped e.2).served, Understood V r)
    (reached' : Concurrent.Reachable others start' s')
    (bare' : EmptyStore start'.tree) (calm' : start'.faults = [])
    (understood' : ∀ e ∈ s'.pool.ended, ∀ r ∈ (stopped e.2).served, Understood W r) :
    ∃ events last events' last', Episodes start s.pool.ended events last ∧
      Episodes start' s'.pool.ended events' last' ∧
      ∀ past request reply later past' reply' later',
        events.reduceOption = past ++ (request, reply) :: later →
        events'.reduceOption = past' ++ (request, reply') :: later' →
        cuentas.about request.holder (past.map Prod.fst) =
          cuentas.about request.holder (past'.map Prod.fst) →
        reply.res = reply'.res ∧ (∀ username usernameFolder,
          request = .listContent username usernameFolder → reply.res = ascii "0" →
            reply.res2 = reply'.res2) := by
  have inv := Concurrent.inv_reachable reached
  have inv' := Concurrent.inv_reachable reached'
  obtain ⟨last, serial⟩ := inv.serial
  obtain ⟨last', serial'⟩ := inv'.serial
  obtain ⟨events, episodes⟩ := episodes_inTurn serial.inTurn inv.defined
  obtain ⟨events', episodes'⟩ := episodes_inTurn serial'.inTurn inv'.defined
  refine ⟨events, last, events', last', episodes, episodes', ?_⟩
  intro past request reply later past' reply' later' split split' own
  have told := (episodes.attends (attends_nobody bare calm) understood).2 _ _ _ split
  have told' := (episodes'.attends (attends_nobody bare' calm') understood').2 _ _ _ split'
  exact told_congr told told' own

/-- Two of the same connections, without bob. -/
def anaAlone : List Bytes :=
  [ascii "REGISTER\x00ana\x0011:00\x00",
    ascii "CONNECT\x00ana\x004001\x0010.0.0.1\x0011:01\x00"]

def aloneRequests : List Request :=
  [.register (ascii "ana"), .connect (ascii "ana") (ascii "4001") (ascii "10.0.0.1")]

theorem plays_alone : Concurrent.Plays anaAlone aloneRequests ⟨firstStart, [], []⟩ := by
  decide +kernel

theorem own_requests_decide_ana : ∃ s s' : Concurrent.State,
    s.pool.ended = Concurrent.scriptTurns Concurrent.anaScript ⟨firstStart, [], []⟩ ∧
    s'.pool.ended = Concurrent.scriptTurns anaAlone ⟨firstStart, [], []⟩ ∧
      ∃ events last events' last', Episodes ⟨firstStart, [], []⟩ s.pool.ended events last ∧
        Episodes ⟨firstStart, [], []⟩ s'.pool.ended events' last' ∧
        ∀ past request reply later past' reply' later',
          events.reduceOption = past ++ (request, reply) :: later →
          events'.reduceOption = past' ++ (request, reply') :: later' →
          cuentas.about request.holder (past.map Prod.fst) =
            cuentas.about request.holder (past'.map Prod.fst) →
          reply.res = reply'.res ∧ (∀ username usernameFolder,
            request = .listContent username usernameFolder → reply.res = ascii "0" →
              reply.res2 = reply'.res2) := by
  obtain ⟨s, reached, _, ended⟩ := Concurrent.plays_ana.reached
  obtain ⟨s', reached', _, ended'⟩ := plays_alone.reached
  have understood : ∀ e ∈ s.pool.ended, ∀ r ∈ (stopped e.2).served, Understood anaAndBob r := by
    rw [ended]
    exact Concurrent.plays_ana.each understood_anaRequests
  have understood' : ∀ e ∈ s'.pool.ended, ∀ r ∈ (stopped e.2).served, Understood anaAndBob r := by
    have among : ∀ r ∈ aloneRequests, r ∈ Concurrent.anaRequests := by decide
    rw [ended']
    exact plays_alone.each fun r member => understood_anaRequests r (among r member)
  exact ⟨s, s', ended, ended', own_requests_decide reached emptyStore_firstStart rfl understood
    reached' emptyStore_firstStart rfl understood'⟩

end Schedules

end DistrApp.Server
