import DistrApp.Server.Concurrent
import DistrApp.Server.Episodes
import DistrApp.Server.Arrays
import DistrApp.Server.Refines
import DistrApp.Server.Distinct

/-!
# The directory under every schedule

Each connection of a concurrent run is an episode on the store that the one
before it left.  So the requests served make one sequential run, each client
hears the reply of its own request in that run, and with requests that fit the
arrays the store is the directory after all of them.
-/

set_option autoImplicit false

namespace DistrApp.Server

open Text FileTree Effects

/-! ## The table holds short words -/

/-- Whole entries that one `fgets` reads, with words of fewer than 100 bytes. -/
structure ShortWords (text : Bytes) : Prop where
  whole : Finished text
  short : ∀ line ∈ lines text, line.length ≤ 255
  words : ∀ word ∈ words text, word.length < 100

/-- The names fit the paths; what CONNECT writes to the table fits its line and
the arrays that the words are scanned into. -/
def Moderate (request : Request) : Prop :=
  NamesFit request ∧ ∀ username freePort freeServer,
    request = .connect username freePort freeServer →
      (tableEntry username freeServer freePort).length ≤ 255 ∧ username.length < 100 ∧
        freeServer.length < 100 ∧ freePort.length < 100

theorem words_length {text word : Bytes} (member : word ∈ words text) :
    word.length ≤ text.length := (infix_of_mem_words member).length_le

theorem words_tableEntry {username freePort freeServer word : Bytes}
    (member : word ∈ words (tableEntry username freeServer freePort)) :
    word.length ≤ username.length ∨ word.length ≤ freeServer.length ∨
      word.length ≤ freePort.length := by
  have blank : ∀ {before after : Bytes}, word ∈ words (before ++ space :: after) →
      word.length ≤ before.length ∨ word ∈ words after := by
    intro before after inside
    rw [words_append_cons _ _ (by decide), List.mem_append] at inside
    exact inside.imp words_length fun later => later
  rw [tableEntry_eq, List.append_assoc, List.cons_append] at member
  rcases blank member with first | later
  · exact Or.inl first
  · rw [List.append_assoc, List.cons_append] at later
    rcases blank later with second | last
    · exact Or.inr (Or.inl second)
    · rw [List.append_assoc] at last
      rcases blank last with third | nothing
      · exact Or.inr (Or.inr third)
      · have left : word ∈ words [newline] := nothing
        rw [show words [newline] = [] by decide] at left
        cases left

theorem shortWords_connect {username freePort freeServer text : Bytes}
    (deliverable : (Request.connect username freePort freeServer).Deliverable)
    (moderate : Moderate (.connect username freePort freeServer)) (tidy : ShortWords text) :
    ShortWords (text ++ tableEntry username freeServer freePort) := by
  obtain ⟨short, user, server, port⟩ := moderate.2 _ _ _ rfl
  refine ⟨finished_tableEntry _ _ _ _, fun line member => ?_, fun word member => ?_⟩
  · rw [lines_append tidy.whole, lines_tableEntry deliverable] at member
    rcases List.mem_append.mp member with old | new
    · exact tidy.short line old
    · rw [List.mem_singleton.mp new]
      exact short
  · rw [words_append tidy.whole] at member
    rcases List.mem_append.mp member with old | new
    · exact tidy.words word old
    · rcases words_tableEntry new with first | second | third <;> omega

theorem shortWords_kept {username text : Bytes} (clean : (0 : UInt8) ∉ text)
    (tidy : ShortWords text) : ShortWords (kept username text) := by
  obtain ⟨ls, sub, joined⟩ := @kept_lines username text clean (by
    intro line member
    rw [pieces_of_short member (Nat.lt_succ_of_le (tidy.short line member))]
    by_cases found : username <:+: line
    · exact Or.inl (by simpa using found)
    · exact Or.inr (by simpa using found))
  have same := lines_of_sublist sub
  rw [joined]
  refine ⟨finished_of_sublist tidy.whole sub, fun line member => ?_, fun word member => ?_⟩
  · rw [same] at member
    exact tidy.short line (sub.subset member)
  · rw [words_lines, same] at member
    obtain ⟨line, here, inside⟩ := List.mem_flatMap.mp member
    refine tidy.words word ?_
    rw [words_lines]
    exact List.mem_flatMap.mpr ⟨line, sub.subset here, inside⟩

/-- The table has no NUL in it and only short words. -/
structure Tidy (t : FileTree) : Prop where
  clean : TableClean t
  words : ∀ text, table t = some text → ShortWords text

theorem shortWords_nil : ShortWords [] := by
  refine ⟨Or.inl rfl, ?_, ?_⟩ <;> simp

theorem tidy_started {t : FileTree} (started : Started t) : Tidy t := by
  refine ⟨fun text here => ?_, fun text here => ?_⟩ <;> rw [started.2] at here <;> cases here
  · simp
  · exact shortWords_nil

theorem tidy_step {t t' : FileTree} {event : Request × Reply} (tidy : Tidy t)
    (served : Serves t event t') (moderate : Moderate event.1) : Tidy t' := by
  refine ⟨serves_tableClean tidy.clean served, fun text here => ?_⟩
  have deliverable := served.1
  rcases outcome_table (serves_outcome served) with same | gone | connecting | disconnecting
  · exact tidy.words text (same ▸ here)
  · rw [gone] at here
    cases here
  · obtain ⟨username, freePort, freeServer, before, request, held, _, now⟩ := connecting
    have old : ShortWords before := by
      rcases held with held | ⟨_, rfl⟩
      · exact tidy.words before held
      · exact shortWords_nil
    rcases now with now | ⟨_, _, now⟩
    · rw [now] at here
      cases here
      exact old
    · rw [now] at here
      cases here
      rw [request] at deliverable moderate
      exact shortWords_connect deliverable moderate old
  · obtain ⟨username, before, _, held, now⟩ := disconnecting
    rw [now] at here
    cases here
    exact shortWords_kept (tidy.clean before held) (tidy.words before held)

theorem wordsFit_of_short {size : Nat} {username text : Bytes} (tidy : ShortWords text)
    (room : 100 ≤ size) : scanWords size username (Text.words text) ≠ none := by
  rw [scanWords_ne_none]
  intro before word first _
  have short := tidy.words word
    (first.subset (List.mem_append_right _ (List.mem_singleton.mpr rfl)))
  omega

theorem fits_of_tidy {t : FileTree} {request : Request} (tidy : Tidy t)
    (moderate : Moderate request) : Fits t request := by
  refine ⟨moderate.1, ?_⟩
  cases request with
  | connect username freePort freeServer =>
      exact fun text here => wordsFit_of_short (tidy.words text here) (by omega)
  | publish username fileName description =>
      exact fun text here => wordsFit_of_short (tidy.words text here) le_rfl
  | _ => trivial

/-! ## The connections as episodes -/

/-- The sections that have ended, each with what it has done to the store that
the one before it left. -/
inductive Episodes (s : Sys) : List (Concurrent.Key × EStateM.Result Stop Conn Unit) →
    List (Option (Request × Reply)) → Sys → Prop
  | nobody : Episodes s [] [] s
  | next {ended : List (Concurrent.Key × EStateM.Result Stop Conn Unit)}
      {events : List (Option (Request × Reply))} {middle : Sys} (key : Concurrent.Key)
      (result : EStateM.Result Stop Conn Unit) (event : Option (Request × Reply)) :
      Episodes s ended events middle → Episode middle (stopped result) event →
      Episodes s (ended ++ [(key, result)]) (events ++ [event]) (stopped result).sys

section Schedules
variable {peers : AcceptLoop.Descriptor → Concurrent.Peer} {start last : Sys}
  {ended : List (Concurrent.Key × EStateM.Result Stop Conn Unit)}
  {events : List (Option (Request × Reply))}

theorem episode_alone (key : Concurrent.Key) (s : Sys)
    (defined : (Concurrent.exitPc ((Concurrent.sections peers).alone key s)).isSome = true) :
    ∃ event, Episode s (stopped ((Concurrent.sections peers).alone key s)) event := by
  have unserved : Unserved s (peers key.2).writes
      (Conn.accepted s (peers key.2).input (peers key.2).writes) := ⟨rfl, rfl, rfl, rfl, rfl⟩
  have comes := comes_cuerpo (peers key.2).env _ unserved
  have same : (Concurrent.sections peers).alone key s = (cuerpo (peers key.2).env).run
      (Conn.accepted s (peers key.2).input (peers key.2).writes) := rfl
  rw [same] at defined ⊢
  cases ran : (cuerpo (peers key.2).env).run
      (Conn.accepted s (peers key.2).input (peers key.2).writes) with
  | ok _ c =>
      rw [ran] at comes
      exact comes
  | error e c =>
      rw [ran] at comes defined
      cases e with
      | returned => exact comes rfl
      | undefined why => cases defined
      | overrun => cases defined

theorem episodes_inTurn (inTurn : Sections.InTurn (Concurrent.sections peers) start ended last)
    (defined : ∀ e ∈ ended, (Concurrent.exitPc e.2).isSome = true) :
    ∃ events, Episodes start ended events last := by
  induction inTurn with
  | nobody => exact ⟨[], .nobody⟩
  | @next past middle key _ ih =>
      obtain ⟨events, episodes⟩ := ih fun e member => defined e (List.mem_append_left _ member)
      obtain ⟨event, episode⟩ := episode_alone key middle
        (defined _ (List.mem_append_right _ (List.mem_singleton.mpr rfl)))
      exact ⟨events ++ [event], .next key _ event episodes episode⟩

theorem Episodes.run (episodes : Episodes start ended events last) :
    Run Serves start.tree events.reduceOption last.tree := by
  induction episodes with
  | nobody => exact Run.start
  | next key result event _ episode ih =>
      rw [List.reduceOption_append]
      cases episode with
      | quiet _ _ _ same _ =>
          rw [same]
          simpa using ih
      | served op campos reply s' deliverable ran _ _ _ same _ =>
          exact Run.next ih ⟨deliverable, _, s', rfl, ran, same.symm⟩

theorem Episodes.requests (episodes : Episodes start ended events last) :
    events.reduceOption.map Prod.fst = ended.flatMap fun e => (stopped e.2).served := by
  induction episodes with
  | nobody => rfl
  | next key result event _ episode ih =>
      rw [List.reduceOption_append, List.map_append, List.flatMap_append, ih]
      congr 1
      cases episode with
      | quiet served _ _ _ _ => simp [served]
      | served op campos reply s' _ _ served _ _ _ _ => simp [served]

theorem Episodes.deliverable (episodes : Episodes start ended events last) :
    ∀ event ∈ events.reduceOption, event.1.Deliverable := by
  refine episodes.run.invariant (P := fun past _ => ∀ event ∈ past, event.1.Deliverable)
    (fun _ absurdity => by cases absurdity) ?_
  intro past _ label _ before served event member
  rcases List.mem_append.mp member with old | new
  · exact before event old
  · rw [List.mem_singleton.mp new]
    exact served.1

theorem along_snoc {α : Type} {P : List α → α → Prop} {l : List α} {a : α}
    (along : ∀ past b later, l = past ++ b :: later → P past b) (last : P l a) :
    ∀ past b later, l ++ [a] = past ++ b :: later → P past b := by
  intro past other later split
  rcases List.eq_nil_or_concat later with rfl | ⟨before, final, rfl⟩
  · obtain ⟨same, here⟩ := List.append_inj' split rfl
    cases here
    rw [← same]
    exact last
  · rw [List.concat_eq_append, ← List.cons_append, ← List.append_assoc] at split
    obtain ⟨same, _⟩ := List.append_inj' split rfl
    exact along past other before same

def AnsweredAlong (history : History) : Prop :=
  ∀ past event later, history = past ++ event :: later → Answers (usersAfter past) event.1 event.2

theorem AnsweredAlong.snoc {history : History} {event : Request × Reply}
    (answered : AnsweredAlong history) (answers : Answers (usersAfter history) event.1 event.2) :
    AnsweredAlong (history ++ [event]) :=
  along_snoc (P := fun past event => Answers (usersAfter past) event.1 event.2) answered answers

/-- What links the store to the directory along a run of moderate requests. -/
structure InStep (s : Sys) (history : History) : Prop where
  calm : s.faults = []
  tidy : Tidy s.tree
  represents : Represents s.tree (usersAfter history)
  answered : AnsweredAlong history

theorem inStep_empty (bare : EmptyStore start.tree) (calm : start.faults = []) : InStep start [] :=
  ⟨calm, tidy_started bare.started, represents_empty bare, fun past _ _ absurdity => by
    simp at absurdity⟩

theorem InStep.episode {s : Sys} {history : History} (inStep : InStep s history) {c : Conn}
    {event : Option (Request × Reply)} (episode : Episode s c event)
    (moderate : ∀ r ∈ c.served, Moderate r) : InStep c.sys (history ++ event.toList) := by
  cases episode with
  | quiet _ _ _ same calm =>
      rw [Option.toList_none, List.append_nil]
      exact ⟨calm inStep.calm, same ▸ inStep.tidy, same ▸ inStep.represents, inStep.answered⟩
  | served op campos reply s' deliverable ran served _ _ same calm =>
      have modest := moderate (op.request campos) (by rw [served]; exact List.mem_singleton.mpr rfl)
      obtain ⟨reply', later, ran', calm', answers, represents⟩ :=
        simulates inStep.calm inStep.represents (fits_of_tidy inStep.tidy modest)
      rw [ran] at ran'
      cases ran'
      have step : Serves s.tree (op.request campos, reply) s'.tree :=
        ⟨deliverable, s, s', rfl, ran, rfl⟩
      refine ⟨calm calm', same ▸ tidy_step inStep.tidy step modest, ?_,
        inStep.answered.snoc answers⟩
      rw [same, usersAfter, Option.toList_some, List.foldl_append]
      exact represents

theorem Episodes.inStep {past : History} (inStep : InStep start past)
    (episodes : Episodes start ended events last)
    (moderate : ∀ e ∈ ended, ∀ r ∈ (stopped e.2).served, Moderate r) :
    InStep last (past ++ events.reduceOption) := by
  induction episodes with
  | nobody => simpa using inStep
  | next key result event _ episode ih =>
      have before := ih fun e member => moderate e (List.mem_append_left _ member)
      have later := before.episode episode
        (moderate (key, result) (List.mem_append_right _ (List.mem_singleton.mpr rfl)))
      rw [List.reduceOption_append, ← List.append_assoc]
      cases event with
      | none => simpa using later
      | some event => exact later

variable {s : Concurrent.State}

/-- On every schedule, and whatever fails, the requests that have been served
make one run in the order of `accept`: the store is what this run leaves, and
each client hears the reply of its own request in it. -/
theorem schedule_runs (reached : Concurrent.Reachable peers start s) :
    ∃ events last, Episodes start s.pool.ended events last ∧
      Run Serves start.tree events.reduceOption last.tree ∧
      (s.pool.Empty → s.pool.shared = last) := by
  have inv := Concurrent.inv_reachable reached
  obtain ⟨last, serial⟩ := inv.serial
  obtain ⟨events, episodes⟩ := episodes_inTurn serial.inTurn inv.defined
  exact ⟨events, last, episodes, episodes.run, serial.idle⟩

theorem schedule_runs_ana : ∃ s : Concurrent.State,
    s.pool.ended = Concurrent.scriptTurns Concurrent.anaScript ⟨firstStart, [], []⟩ ∧
      ∃ events last, Episodes ⟨firstStart, [], []⟩ s.pool.ended events last ∧
        Run Serves firstStart events.reduceOption last.tree ∧
        (s.pool.Empty → s.pool.shared = last) := by
  obtain ⟨s, reached, _, ended⟩ := Concurrent.plays_ana.reached
  exact ⟨s, ended, schedule_runs reached⟩

theorem moderate_anaRequests : ∀ r ∈ Concurrent.anaRequests, Moderate r := by
  have other : ∀ {r : Request}, (∀ u p h, r ≠ .connect u p h) → NamesFit r → Moderate r :=
    fun no_connect names => ⟨names, fun u p h same => absurd same (no_connect u p h)⟩
  intro r member
  simp only [Concurrent.anaRequests, List.mem_cons, List.not_mem_nil, or_false] at member
  rcases member with rfl | rfl | rfl | rfl | rfl | rfl
  · exact other (by simp) ⟨by decide, by decide⟩
  · exact other (by simp) ⟨by decide, by decide⟩
  · refine ⟨⟨by decide, by decide⟩, fun _ _ _ same => ?_⟩
    cases same
    decide
  · refine ⟨⟨by decide, by decide⟩, fun _ _ _ same => ?_⟩
    cases same
    decide
  · exact other (by simp) ⟨by decide, ⟨by decide, by decide, by decide⟩, by decide, by decide⟩
  · exact other (by simp) ⟨by decide, by decide⟩

end Schedules

end DistrApp.Server
