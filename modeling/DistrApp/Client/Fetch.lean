import DistrApp.Client.PeerRequest
import DistrApp.Client.Transfer

/-!
# A whole GET_FILE

From the first message of the request to the end of both loops.  The request has
four messages and the thread takes them with one `recv`; after the reply the two
sides are where a transfer begins, with what they have said so far behind them.
-/

set_option autoImplicit false

namespace DistrApp.Client

open Text Streams Effects

/-! ## Deliveries -/

def requestMessages (user remoteName : String) : List Bytes :=
  encode "GET_FILE\x00" :: GetFile.request user remoteName

/-- No call fails, the first `recv` of the thread takes the request and each `recv`
of `getfile` one message of the thread, both whole. -/
def Fetches (requested : Bytes) (x : Link GetFile Prog) : Act → Prop
  | .far (.reads n) => x.far.got = [] → x.far.unread.take n = requested
  | act => Whole x act

def FetchStep (requested : Bytes) (x : Link GetFile Prog) (act : Act) (y : Link GetFile Prog) :
    Prop :=
  Step GetFile.program Prog.program x act y ∧ Fetches requested x act

structure Replies (disk : Disk) (fileDirectory : Bytes) (user remoteName : String) (reply : Bytes)
    (near : GetFile) (far : Prog) : Prop where
  answers : answerTo disk fileDirectory (GetFile.requestBytes user remoteName) = .send reply far
  heard : GetFile.received .awaiting reply = near
  sized : 1 ≤ reply.length ∧ reply.length ≤ 256

def Later (near : GetFile) (far : Prog) (history : List Act) (y : Link GetFile Prog) : Prop :=
  Run WholeStep ⟨Side.start near, Side.start far⟩ history y

/-- How far the conversation is after so many steps. -/
inductive Fetching (disk : Disk) (fileDirectory : Bytes) (user remoteName : String) (reply : Bytes)
    (near : GetFile) (far : Prog) : Nat → Link GetFile Prog → Prop
  | asks {past rest : List Bytes} {message : Bytes}
      (whole : past ++ message :: rest = requestMessages user remoteName) :
      Fetching disk fileDirectory user remoteName reply near far past.length
        ⟨⟨.sending message rest, [], [], past⟩,
          ⟨attend disk fileDirectory, past.flatten, [], []⟩⟩
  | waits : Fetching disk fileDirectory user remoteName reply near far 4
      ⟨⟨.awaiting, [], [], requestMessages user remoteName⟩,
        ⟨attend disk fileDirectory, GetFile.requestBytes user remoteName, [], []⟩⟩
  | answers : Fetching disk fileDirectory user remoteName reply near far 5
      ⟨⟨.awaiting, [], [], requestMessages user remoteName⟩,
        ⟨.send reply far, [], [GetFile.requestBytes user remoteName], []⟩⟩
  | replied {history : List Act} {y : Link GetFile Prog} (run : Later near far history y)
      (state : y.near.state = near) (got : y.near.got = []) (put : y.near.put = []) :
      Fetching disk fileDirectory user remoteName reply near far (history.length + 6)
        ⟨⟨.awaiting, reply ++ y.near.unread, [], requestMessages user remoteName⟩,
          y.far.after [GetFile.requestBytes user remoteName] [reply]⟩
  | goesOn {history : List Act} {y : Link GetFile Prog} (run : Later near far history y) :
      Fetching disk fileDirectory user remoteName reply near far (history.length + 7)
        ⟨y.near.after [reply] (requestMessages user remoteName),
          y.far.after [GetFile.requestBytes user remoteName] [reply]⟩

section Conversation
variable {disk : Disk} {fileDirectory : Bytes} {user remoteName : String} {reply : Bytes}
  {near : GetFile} {far : Prog} {x y : Link GetFile Prog} {n : Nat} {act : Act}

theorem requestMessages_flatten :
    (requestMessages user remoteName).flatten = GetFile.requestBytes user remoteName := by
  rw [requestMessages, List.flatten_cons]
  rfl

theorem ne_nil_of_message {message : Bytes} (member : message ∈ requestMessages user remoteName) :
    message ≠ [] := by
  have command : encode "GET_FILE\x00" ≠ [] := by decide
  have nul : encode "\x00" ≠ [] := by decide
  simp only [requestMessages, GetFile.request, List.mem_cons, List.not_mem_nil, or_false] at member
  rcases member with rfl | rfl | rfl | rfl
  · exact command
  · exact List.append_ne_nil_of_right_ne_nil _ nul
  · exact List.append_ne_nil_of_right_ne_nil _ nul
  · exact List.append_ne_nil_of_right_ne_nil _ nul

theorem requestBytes_pos : 1 ≤ (GetFile.requestBytes user remoteName).length := by
  rw [← requestMessages_flatten, requestMessages, List.flatten_cons, List.length_append]
  have command : (encode "GET_FILE\x00").length = 9 := by decide
  omega

theorem fetching_start :
    Fetching disk fileDirectory user remoteName reply near far 0
      (exchange disk fileDirectory user remoteName) :=
  @Fetching.asks _ _ _ _ _ _ _ [] _ _ rfl

theorem request_incomplete {past rest : List Bytes} {message : Bytes}
    (whole : past ++ message :: rest = requestMessages user remoteName) (m : Nat) :
    past.flatten.take m ≠ GetFile.requestBytes user remoteName := by
  intro same
  have size := congrArg List.length same
  have some_bytes := List.length_pos_of_ne_nil
    (ne_nil_of_message (show message ∈ requestMessages user remoteName by rw [← whole]; simp))
  rw [← requestMessages_flatten, ← whole, List.length_take] at size
  simp only [List.flatten_append, List.flatten_cons, List.length_append] at size
  omega

theorem fetching_asks {past rest : List Bytes} {message : Bytes}
    (whole : past ++ message :: rest = requestMessages user remoteName)
    (step : FetchStep (GetFile.requestBytes user remoteName)
      ⟨⟨.sending message rest, [], [], past⟩, ⟨attend disk fileDirectory, past.flatten, [], []⟩⟩
      act y) :
    Fetching disk fileDirectory user remoteName reply near far (past.length + 1) y := by
  obtain ⟨step, fetches⟩ := step
  cases step with
  | nearReads here takes =>
      cases here
      exact takes.elim
  | nearSends here =>
      cases here
      cases rest with
      | nil =>
          have all : past ++ [message] = requestMessages user remoteName := whole
          have size : past.length + 1 = 4 := by
            simpa [requestMessages, GetFile.request] using congrArg List.length all
          have unread : past.flatten ++ message = GetFile.requestBytes user remoteName := by
            rw [← requestMessages_flatten, ← all]
            simp
          rw [size]
          simp only [Side.sends, Side.gains, GetFile.program, GetFile.sent, all, unread]
          exact Fetching.waits
      | cons next rest =>
          have goesOn := @Fetching.asks disk fileDirectory user remoteName reply near far
            (past ++ [message]) rest next
            (by rw [← whole, List.append_assoc, List.singleton_append])
          simpa [Side.sends, Side.gains, GetFile.program, GetFile.sent] using goesOn
  | farReads here takes => exact absurd (fetches rfl) (request_incomplete whole _)
  | farSends here => cases here
  | nearRaises n here => exact fetches.elim
  | farRaises n here => exact fetches.elim

theorem fetching_waits (replies : Replies disk fileDirectory user remoteName reply near far)
    (step : FetchStep (GetFile.requestBytes user remoteName)
      ⟨⟨.awaiting, [], [], requestMessages user remoteName⟩,
        ⟨attend disk fileDirectory, GetFile.requestBytes user remoteName, [], []⟩⟩ act y) :
    Fetching disk fileDirectory user remoteName reply near far 5 y := by
  obtain ⟨step, fetches⟩ := step
  cases step with
  | nearReads here takes => exact absurd List.take_nil takes.ne_nil
  | nearSends here => cases here
  | @farReads call n here takes =>
      have all : (GetFile.requestBytes user remoteName).take n = _ := fetches rfl
      have nothing : (GetFile.requestBytes user remoteName).drop n = [] := by
        have parts := List.take_append_drop n (GetFile.requestBytes user remoteName)
        rw [all] at parts
        exact List.append_right_eq_self.mp parts
      simp only [Side.reads, Prog.program, attend, Prog.received, all, nothing, List.nil_append,
        replies.answers]
      exact Fetching.answers
  | farSends here => cases here
  | nearRaises n here => exact fetches.elim
  | farRaises n here => exact fetches.elim

theorem fetching_answers
    (step : FetchStep (GetFile.requestBytes user remoteName)
      ⟨⟨.awaiting, [], [], requestMessages user remoteName⟩,
        ⟨.send reply far, [], [GetFile.requestBytes user remoteName], []⟩⟩ act y) :
    Fetching disk fileDirectory user remoteName reply near far 6 y := by
  obtain ⟨step, fetches⟩ := step
  cases step with
  | nearReads here takes => exact absurd List.take_nil takes.ne_nil
  | nearSends here => cases here
  | farReads here takes =>
      cases here
      exact takes.elim
  | farSends here =>
      cases here
      have goesOn := @Fetching.replied disk fileDirectory user remoteName reply near far [] _
        Run.start rfl rfl rfl
      simpa [Side.sends, Side.gains, Side.after, Side.start, Prog.program, Prog.sent] using goesOn
  | nearRaises n here => exact fetches.elim
  | farRaises n here => exact fetches.elim

theorem fetching_replied (replies : Replies disk fileDirectory user remoteName reply near far)
    {history : List Act} {z : Link GetFile Prog} (run : Later near far history y)
    (state : y.near.state = near) (got : y.near.got = []) (put : y.near.put = [])
    (step : FetchStep (GetFile.requestBytes user remoteName)
      ⟨⟨.awaiting, reply ++ y.near.unread, [], requestMessages user remoteName⟩,
        y.far.after [GetFile.requestBytes user remoteName] [reply]⟩ act z) :
    Fetching disk fileDirectory user remoteName reply near far (history.length + 6 + 1) z := by
  obtain ⟨step, fetches⟩ := step
  cases step with
  | @nearReads call n here takes =>
      have first : (reply ++ y.near.unread).take n = reply :=
        (List.cons_prefix_cons.mp fetches).1
      have size : n = reply.length := by
        rw [← takes.length]
        exact congrArg List.length first
      have goesOn := @Fetching.goesOn disk fileDirectory user remoteName reply near far _ _ run
      subst size
      simpa [Side.reads, Side.after, GetFile.program, replies.heard, state, got, put] using goesOn
  | nearSends here => cases here
  | farReads here takes =>
      have goesOn := @Fetching.replied disk fileDirectory user remoteName reply near far _ _
        (Run.next run ⟨Step.farReads here takes, trivial⟩) state got put
      simpa [Side.reads, Side.after] using goesOn
  | farSends here =>
      have goesOn := @Fetching.replied disk fileDirectory user remoteName reply near far _ _
        (Run.next run ⟨Step.farSends here, trivial⟩) state got put
      simpa [Side.sends, Side.gains, Side.after] using goesOn
  | nearRaises n here => exact fetches.elim
  | farRaises n here => exact fetches.elim

theorem fetches_after_iff : Fetches (GetFile.requestBytes user remoteName)
    ⟨y.near.after [reply] (requestMessages user remoteName),
      y.far.after [GetFile.requestBytes user remoteName] [reply]⟩ act ↔ Whole y act := by
  cases act with
  | near move =>
      cases move with
      | reads n => exact List.cons_prefix_cons.trans (and_iff_right rfl)
      | sends => exact Iff.rfl
      | raises n => exact Iff.rfl
  | far move =>
      cases move with
      | reads n => exact iff_of_true (fun nothing => by cases nothing) trivial
      | sends => exact Iff.rfl
      | raises n => exact Iff.rfl

theorem fetching_goesOn {history : List Act} {z : Link GetFile Prog}
    (run : Later near far history y) (step : FetchStep (GetFile.requestBytes user remoteName)
      ⟨y.near.after [reply] (requestMessages user remoteName),
        y.far.after [GetFile.requestBytes user remoteName] [reply]⟩ act z) :
    Fetching disk fileDirectory user remoteName reply near far (history.length + 7 + 1) z := by
  obtain ⟨step, fetches⟩ := step
  obtain ⟨z', moved, rfl⟩ := step_after step
  have goesOn := @Fetching.goesOn disk fileDirectory user remoteName reply near far _ _
    (Run.next run ⟨moved, fetches_after_iff.mp fetches⟩)
  rw [List.length_append, List.length_singleton] at goesOn
  exact goesOn

theorem fetching_step (replies : Replies disk fileDirectory user remoteName reply near far)
    (fetching : Fetching disk fileDirectory user remoteName reply near far n x)
    (step : FetchStep (GetFile.requestBytes user remoteName) x act y) :
    Fetching disk fileDirectory user remoteName reply near far (n + 1) y := by
  cases fetching with
  | asks whole => exact fetching_asks whole step
  | waits => exact fetching_waits replies step
  | answers => exact fetching_answers step
  | replied run state got put => exact fetching_replied replies run state got put step
  | goesOn run => exact fetching_goesOn run step

theorem fetching_run (replies : Replies disk fileDirectory user remoteName reply near far)
    {history : List Act} (run : Run (FetchStep (GetFile.requestBytes user remoteName))
      (exchange disk fileDirectory user remoteName) history x) :
    Fetching disk fileDirectory user remoteName reply near far history.length x :=
  run.invariant (P := fun past x =>
    Fetching disk fileDirectory user remoteName reply near far past.length x) fetching_start
    fun fetching step => by
      rw [List.length_append, List.length_singleton]
      exact fetching_step replies fetching step

theorem later_of_stuck (replies : Replies disk fileDirectory user remoteName reply near far)
    (short : (GetFile.requestBytes user remoteName).length ≤ 256)
    (fetching : Fetching disk fileDirectory user remoteName reply near far n x)
    (stuck : Stuck (FetchStep (GetFile.requestBytes user remoteName)) x) :
    ∃ history y, Later near far history y ∧ Stuck WholeStep y ∧
      x = ⟨y.near.after [reply] (requestMessages user remoteName),
        y.far.after [GetFile.requestBytes user remoteName] [reply]⟩ := by
  cases fetching with
  | asks whole => exact absurd ⟨Step.nearSends rfl, trivial⟩ (stuck (.near .sends) _)
  | waits =>
      have some_bytes : 1 ≤ (GetFile.requestBytes user remoteName).length := by
        rw [← requestMessages_flatten, requestMessages, List.flatten_cons, List.length_append]
        have command : (encode "GET_FILE\x00").length = 9 := by decide
        omega
      exact absurd ⟨Step.farReads rfl ⟨some_bytes, short, le_rfl⟩, fun _ => List.take_length⟩
        (stuck (.far (.reads _)) _)
  | answers => exact absurd ⟨Step.farSends rfl, trivial⟩ (stuck (.far .sends) _)
  | @replied history y run state got put =>
      have takes : (Call.recv 256).Takes (reply ++ y.near.unread) reply.length :=
        ⟨replies.sized.1, replies.sized.2, by rw [List.length_append]; omega⟩
      refine absurd ⟨Step.nearReads rfl takes, ?_⟩ (stuck (.near (.reads reply.length)) _)
      exact List.cons_prefix_cons.mpr ⟨List.take_left, List.nil_prefix⟩
  | @goesOn history y run =>
      refine ⟨history, y, run, fun act z moved => ?_, rfl⟩
      exact stuck act _ ⟨moved.1.after _ _ _ _, fetches_after_iff.mpr moved.2⟩

theorem fetching_bounded {bound : Nat}
    (bounded : ∀ history y, Later near far history y → history.length ≤ bound)
    (fetching : Fetching disk fileDirectory user remoteName reply near far n x) :
    n ≤ bound + 7 := by
  cases fetching with
  | @asks past rest message whole =>
      have size := congrArg List.length whole
      simp only [requestMessages, GetFile.request, List.length_append, List.length_cons,
        List.length_nil] at size
      omega
  | waits => omega
  | answers => omega
  | replied run state got put =>
      have few := bounded _ _ run
      omega
  | goesOn run =>
      have few := bounded _ _ run
      omega

theorem later_of_ended (fetching : Fetching disk fileDirectory user remoteName reply near far n x)
    (ended : x.near.state.call = none) :
    ∃ history y, Later near far history y ∧ x.near.state = y.near.state := by
  cases fetching with
  | asks whole => cases ended
  | waits => cases ended
  | answers => cases ended
  | replied run state got put => cases ended
  | goesOn run => exact ⟨_, _, run, rfl⟩

end Conversation

/-! ## The two replies -/

section Replies
variable {disk : Disk} {fileDirectory content : Bytes} {user remoteName : String}

theorem request_read (plainUser : '\x00' ∉ user.toList) (plainName : '\x00' ∉ remoteName.toList) :
    decodes (GetFile.requestBytes user remoteName) = true ∧
      (ascii "GET_FILE").isPrefixOf (GetFile.requestBytes user remoteName) = true ∧
      remoteFileName (GetFile.requestBytes user remoteName) = some (encode remoteName) := by
  have reaches : nameEnd user remoteName ≤ (GetFile.requestBytes user remoteName).length := by
    rw [requestBytes_eq, nameEnd, List.length_append, List.length_append]
    omega
  have whole := request_whole reaches
  have named := (remoteFileName_take_iff plainUser plainName _).mpr reaches
  rw [List.take_length] at whole named
  exact ⟨whole.1, whole.2, named⟩

theorem replies_found (plainUser : '\x00' ∉ user.toList) (plainName : '\x00' ∉ remoteName.toList)
    (there : disk.Has (pathOf fileDirectory (encode remoteName)) content) :
    Replies disk fileDirectory user remoteName (ascii "0\x00") (.receiving [])
      (sendChunks (chunks content)) := by
  obtain ⟨readable, asks, named⟩ := request_read plainUser plainName
  obtain ⟨answers, heard⟩ := reply_begins_transfer readable asks named there
  exact ⟨answers, heard, by decide⟩

theorem replies_missing (plainUser : '\x00' ∉ user.toList) (plainName : '\x00' ∉ remoteName.toList)
    (missing : disk.pathExists (pathOf fileDirectory (encode remoteName)) = false) :
    Replies disk fileDirectory user remoteName (ascii "2\x00") .notFound .done := by
  obtain ⟨readable, asks, named⟩ := request_read plainUser plainName
  refine ⟨?_, by decide +kernel, by decide⟩
  rw [answerTo, if_neg (by simp [readable]), if_pos asks, named]
  simp only [missing, Bool.false_eq_true, if_false]

end Replies

/-! ## What comes of it -/

/-- What arrives of a file: a last chunk that is the marker is missing. -/
def fetched (content : Bytes) : Bytes :=
  if finArchivo ∈ chunks content then content.take (content.length - finArchivo.length)
  else content

/-- How `getfile` ends, by what there is to read at the path. -/
def GetFile.outcome : Option Bytes → GetFile
  | none => .notFound
  | some content => .ok (fetched content)

section Transfers
variable {content : Bytes} {history : List Act} {y : Link GetFile Prog}

theorem last_of_short (content : Bytes) : ∀ {before rest : List Bytes} {chunk : Bytes},
    chunks content = before ++ chunk :: rest → chunk.length < 256 → rest = [] := by
  induction content using chunks_induction with
  | empty =>
      intro before rest chunk split
      exact absurd split.symm (by simp [chunks, chunksFuel])
  | more content some_bytes ih =>
      intro before rest chunk split short
      rw [chunks_cons some_bytes] at split
      cases before with
      | nil =>
          obtain ⟨rfl, rfl⟩ := List.cons.inj split
          rw [List.length_take] at short
          rw [List.drop_eq_nil_of_le (by omega)]
          rfl
      | cons first before => exact ih (List.cons.inj split).2 short

theorem fetched_of_reads {before : List Bytes} (free : finArchivo ∉ before)
    (read : before ++ [finArchivo] <+: chunks content ++ [finArchivo]) :
    before.flatten = fetched content := by
  rw [fetched]
  rcases chunks_of_reads read with rfl | ⟨rest, split⟩
  · rw [if_neg free, chunks_flatten]
  · have last := last_of_short content split (by decide)
    subst last
    have whole := chunks_flatten content
    rw [split, List.flatten_append, List.flatten_singleton] at whole
    rw [split, if_pos (by simp), ← whole, List.length_append, Nat.add_sub_cancel, List.take_left]

theorem transfer_ended (run : Run WholeStep (transfer content) history y)
    (ended : y.near.state.call = none) : y.near.state = .ok (fetched content) := by
  have transferring := transferring_run run
  have read := transferring.read.trans transferring.sent
  have near := transferring.near
  cases state : y.near.state with
  | ok localFile =>
      rw [state] at near
      cases near with
      | ended marked free answered =>
          rw [marked] at read
          rw [fetched_of_reads free read]
  | receiving _ | acknowledging _ | sending _ _ | awaiting =>
      rw [state] at ended
      cases ended
  | notFound | fail | raised =>
      rw [state] at near
      cases near

theorem transfer_stuck (run : Run WholeStep (transfer content) history y)
    (stuck : Stuck WholeStep y) : y.near.state.call = none ∧
      (finArchivo ∉ chunks content → y.far.state = .done) := by
  have transferring := transferring_run run
  obtain ⟨before, got, free, ended, -⟩ := ended_of_stuck (chunk_size content) transferring stuck
  refine ⟨by rw [ended]; rfl, fun plain => ?_⟩
  have read := transferring.read.trans transferring.sent
  have behind := transferring.read.length_le
  rw [got] at read behind
  rcases chunks_of_reads read with rfl | ⟨rest, split⟩
  · rw [List.length_append, List.length_singleton] at behind
    exact transferring.peer.done_of_all behind
  · exact absurd (by rw [split]; simp) plain

theorem later_missing (run : Later .notFound .done history y) :
    history = [] ∧ y.near.state = .notFound ∧ y.far.state = .done := by
  refine run.invariant (P := fun history y =>
    history = [] ∧ y.near.state = .notFound ∧ y.far.state = .done) ⟨rfl, rfl, rfl⟩ ?_
  rintro past middle label after ⟨-, near, far⟩ ⟨step, -⟩
  exfalso
  cases step with
  | nearReads here _ | nearSends here | nearRaises _ here =>
      rw [near] at here
      cases here
  | farReads here _ | farSends here | farRaises _ here =>
      rw [far] at here
      cases here

end Transfers

/-- The run is no longer than this, `getfile` can only end as the file at the path
says, and where nothing can happen any more it has ended, and the thread too,
unless the last chunk of the file is the marker. -/
structure ComesToEnd (requested : Bytes) (there : Option Bytes) (history : List Act)
    (x : Link GetFile Prog) : Prop where
  few : history.length ≤ 4 * (chunks (there.getD [])).length + 11
  right : x.near.state.call = none → x.near.state = .outcome there
  ends : Stuck (FetchStep requested) x → x.near.state.call = none
  peer : Stuck (FetchStep requested) x → finArchivo ∉ chunks (there.getD []) →
    x.far.state = .done

section Ends
variable {disk : Disk} {fileDirectory content : Bytes} {user remoteName : String}
  {history : List Act} {x : Link GetFile Prog}

theorem fetch_found (plainUser : '\x00' ∉ user.toList) (plainName : '\x00' ∉ remoteName.toList)
    (short : (GetFile.requestBytes user remoteName).length ≤ 256)
    (there : disk.Has (pathOf fileDirectory (encode remoteName)) content)
    (run : Run (FetchStep (GetFile.requestBytes user remoteName))
      (exchange disk fileDirectory user remoteName) history x) :
    ComesToEnd (GetFile.requestBytes user remoteName) (some content) history x := by
  have replies := replies_found plainUser plainName there
  have fetching := fetching_run replies run
  refine ⟨?_, fun ended => ?_, fun stuck => ?_, fun stuck plain => ?_⟩
  · have few := fetching_bounded (fun _ _ later => history_bounded later) fetching
    rw [Option.getD_some]
    omega
  · obtain ⟨past, y, later, same⟩ := later_of_ended fetching ended
    rw [same] at ended ⊢
    exact transfer_ended later ended
  · obtain ⟨past, y, later, still, rfl⟩ := later_of_stuck replies short fetching stuck
    exact (transfer_stuck later still).1
  · obtain ⟨past, y, later, still, rfl⟩ := later_of_stuck replies short fetching stuck
    exact (transfer_stuck later still).2 plain

theorem fetch_missing (plainUser : '\x00' ∉ user.toList) (plainName : '\x00' ∉ remoteName.toList)
    (short : (GetFile.requestBytes user remoteName).length ≤ 256)
    (missing : disk.pathExists (pathOf fileDirectory (encode remoteName)) = false)
    (run : Run (FetchStep (GetFile.requestBytes user remoteName))
      (exchange disk fileDirectory user remoteName) history x) :
    ComesToEnd (GetFile.requestBytes user remoteName) none history x := by
  have replies := replies_missing plainUser plainName missing
  have fetching := fetching_run replies run
  have nothing : ∀ past y, Later .notFound .done past y → past.length ≤ 0 := by
    intro past y later
    rw [(later_missing later).1]
    rfl
  refine ⟨?_, fun ended => ?_, fun stuck => ?_, fun stuck _ => ?_⟩
  · have few := fetching_bounded nothing fetching
    omega
  · obtain ⟨past, y, later, same⟩ := later_of_ended fetching ended
    rw [same, (later_missing later).2.1]
    rfl
  · obtain ⟨past, y, later, still, rfl⟩ := later_of_stuck replies short fetching stuck
    exact congrArg GetFile.call (later_missing later).2.1
  · obtain ⟨past, y, later, still, rfl⟩ := later_of_stuck replies short fetching stuck
    exact (later_missing later).2.2

/-- In whatever order the two sides go on, a GET_FILE comes to its end after so many
calls, with the file that is there or the word that there is none. -/
theorem fetch_comes_to_end (plainUser : '\x00' ∉ user.toList)
    (plainName : '\x00' ∉ remoteName.toList)
    (short : (GetFile.requestBytes user remoteName).length ≤ 256)
    (opens : disk.pathExists (pathOf fileDirectory (encode remoteName)) =
      (disk.read (pathOf fileDirectory (encode remoteName))).isSome)
    (run : Run (FetchStep (GetFile.requestBytes user remoteName))
      (exchange disk fileDirectory user remoteName) history x) :
    ComesToEnd (GetFile.requestBytes user remoteName)
      (disk.read (pathOf fileDirectory (encode remoteName))) history x := by
  cases read : disk.read (pathOf fileDirectory (encode remoteName)) with
  | none =>
      rw [read] at opens
      exact fetch_missing plainUser plainName short opens run
  | some content =>
      rw [read] at opens
      exact fetch_found plainUser plainName short ⟨opens, read⟩ run

end Ends

/-! ## A file of three chunks -/

def longNotes : Bytes := List.replicate 600 104

def longDisk : Disk := oneFile (pathOf (ascii "files") (encode "notes")) longNotes

def longLink : Link GetFile Prog := exchange longDisk (ascii "files") "ana" "notes"

theorem long_there : longDisk.Has (pathOf (ascii "files") (encode "notes")) longNotes := by
  constructor <;> simp [longDisk, oneFile]

theorem long_opens : longDisk.pathExists (pathOf (ascii "files") (encode "notes")) =
    (longDisk.read (pathOf (ascii "files") (encode "notes"))).isSome := by
  rw [long_there.1, long_there.2]
  rfl

theorem requestBytes_notes : (GetFile.requestBytes "ana" "notes").length ≤ 256 := by
  decide +kernel

theorem fetch_comes_to_end_notes : ∃ history x,
    Run (FetchStep (GetFile.requestBytes "ana" "notes")) longLink history x ∧
      history.length ≤ 4 * 3 + 11 ∧ x.near.state = .ok longNotes ∧ x.far.state = .done := by
  have ends : ∀ history x,
      Run (FetchStep (GetFile.requestBytes "ana" "notes")) longLink history x →
      ComesToEnd (GetFile.requestBytes "ana" "notes") (some longNotes) history x := by
    intro history x run
    have comes := fetch_comes_to_end (by decide) (by decide) requestBytes_notes long_opens run
    rwa [long_there.2] at comes
  obtain ⟨history, x, run, stuck⟩ := exists_stuck fun history x run => (ends history x run).few
  have comes := ends history x run
  have three : (chunks longNotes).length = 3 := by decide +kernel
  have few := comes.few
  rw [Option.getD_some, three] at few
  refine ⟨history, x, run, few, ?_, comes.peer stuck (by decide +kernel)⟩
  rw [comes.right (comes.ends stuck)]
  decide +kernel

end DistrApp.Client
