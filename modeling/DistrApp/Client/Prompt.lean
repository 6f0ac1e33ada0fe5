import DistrApp.Client.Fetch

/-!
# GET_FILE where nothing stays behind

Every `recv` returns all that has arrived.  Messages can still run together in two
places: the thread may read before the whole request is there, and it may write
the first chunk before the reply has been read.  Otherwise the two sides take
turns, and what a `recv` returns is one message.
-/

set_option autoImplicit false

namespace DistrApp.Client

open Text Streams Effects

/-- Each `recv` takes all there is.  The thread reads when the request has been
written, and writes a chunk when the reply has been read. -/
def Prompt (x : Link GetFile Prog) : Act → Prop
  | .near (.reads n) => n = x.near.unread.length
  | .near .sends => True
  | .far (.reads n) => n = x.far.unread.length ∧ (x.far.got = [] → x.near.state = .awaiting)
  | .far .sends => x.near.state = .awaiting → x.near.unread = []
  | _ => False

def PromptStep (x : Link GetFile Prog) (act : Act) (y : Link GetFile Prog) : Prop :=
  Step GetFile.program Prog.program x act y ∧ Prompt x act

/-! ## Taking turns -/

def Sized (fileChunks : List Bytes) : Prop :=
  ∀ fileChunk ∈ fileChunks, fileChunk ≠ [] ∧ fileChunk.length ≤ 256

/-- Whose turn it is: the states of the two sides, what each has not read, and what
the thread has read before. -/
inductive Turn (disk : Disk) (fileDirectory : Bytes) (user remoteName : String) (reply : Bytes)
    (near : GetFile) (far : Prog) : GetFile → Bytes → Prog → Bytes → List Bytes → Prop
  | asks {past rest : List Bytes} {message : Bytes}
      (whole : past ++ message :: rest = requestMessages user remoteName) :
      Turn disk fileDirectory user remoteName reply near far
        (.sending message rest) [] (attend disk fileDirectory) past.flatten []
  | waits : Turn disk fileDirectory user remoteName reply near far
      .awaiting [] (attend disk fileDirectory) (GetFile.requestBytes user remoteName) []
  | answers {read : Bytes} {got : List Bytes} :
      Turn disk fileDirectory user remoteName reply near far
        .awaiting [] (.send reply far) [] (read :: got)
  | replied {read : Bytes} {got : List Bytes} :
      Turn disk fileDirectory user remoteName reply near far .awaiting reply far [] (read :: got)
  | sends {localFile read : Bytes} {got rest : List Bytes} (sized : Sized rest) :
      Turn disk fileDirectory user remoteName reply near far
        (.receiving localFile) [] (sendChunks rest) [] (read :: got)
  | brings {localFile read fileChunk : Bytes} {got rest : List Bytes}
      (sized : Sized (fileChunk :: rest)) :
      Turn disk fileDirectory user remoteName reply near far (.receiving localFile) fileChunk
        (.recv 256 fun _comprobacion => sendChunks rest) [] (read :: got)
  | acknowledges {localFile read : Bytes} {got rest : List Bytes} (sized : Sized rest) :
      Turn disk fileDirectory user remoteName reply near far (.acknowledging localFile) []
        (.recv 256 fun _comprobacion => sendChunks rest) [] (read :: got)
  | acknowledged {localFile read : Bytes} {got rest : List Bytes} (sized : Sized rest) :
      Turn disk fileDirectory user remoteName reply near far (.receiving localFile) []
        (.recv 256 fun _comprobacion => sendChunks rest) okMessage (read :: got)
  | marks {localFile read : Bytes} {got : List Bytes} :
      Turn disk fileDirectory user remoteName reply near far
        (.receiving localFile) finArchivo .done [] (read :: got)
  | ended {state : GetFile} {thread : Prog} {read : Bytes} {got : List Bytes}
      (ended : state.call = none) (silent : ∀ message, thread.call ≠ some (.send message)) :
      Turn disk fileDirectory user remoteName reply near far state [] thread [] (read :: got)

section Turns
variable {disk : Disk} {fileDirectory : Bytes} {user remoteName : String} {reply : Bytes}
  {near state : GetFile} {far thread : Prog} {unread coming : Bytes} {got : List Bytes}
  {call : Call}

theorem not_takes_nil {n : Nat} (takes : call.Takes [] n) : False :=
  takes.ne_nil List.take_nil

theorem turn_nearReads (replies : Replies disk fileDirectory user remoteName reply near far)
    (begins : ∀ read got, Turn disk fileDirectory user remoteName reply near far near [] far []
      (read :: got))
    (turn : Turn disk fileDirectory user remoteName reply near far state unread thread coming got)
    (here : state.call = some call) (takes : call.Takes unread unread.length) :
    Turn disk fileDirectory user remoteName reply near far (state.received unread) [] thread coming
      got := by
  cases turn with
  | asks | waits | answers | sends | acknowledges | acknowledged | ended =>
      exact (not_takes_nil takes).elim
  | replied =>
      rw [replies.heard]
      exact begins _ _
  | brings sized =>
      rw [GetFile.received]
      split
      · exact .ended rfl fun message here => by cases here
      · exact .acknowledges fun fileChunk member => sized fileChunk (List.mem_cons_of_mem _ member)
  | marks =>
      rw [GetFile.received, if_pos rfl]
      exact .ended rfl fun message here => by cases here

theorem turn_nearSends {message : Bytes}
    (turn : Turn disk fileDirectory user remoteName reply near far state unread thread coming got)
    (here : state.call = some (.send message)) :
    Turn disk fileDirectory user remoteName reply near far state.sent unread thread
      (coming ++ message) got := by
  cases turn with
  | @asks past rest m whole =>
      cases here
      cases rest with
      | nil =>
          have all : past.flatten ++ message = GetFile.requestBytes user remoteName := by
            rw [← requestMessages_flatten, ← whole]
            simp
          rw [all]
          exact .waits
      | cons next rest =>
          have flat : past.flatten ++ message = (past ++ [message]).flatten := by simp
          rw [flat]
          exact .asks (by rw [← whole, List.append_assoc, List.singleton_append])
  | acknowledges sized =>
      cases here
      exact .acknowledged sized
  | ended ended _ => exact absurd (ended.symm.trans here) (by simp)
  | waits | answers | replied | sends | brings | acknowledged | marks => cases here

theorem turn_farReads (replies : Replies disk fileDirectory user remoteName reply near far)
    (turn : Turn disk fileDirectory user remoteName reply near far state unread thread coming got)
    (here : thread.call = some call) (takes : call.Takes coming coming.length)
    (written : got = [] → state = .awaiting) :
    Turn disk fileDirectory user remoteName reply near far state unread (thread.received coming) []
      (got ++ [coming]) ∧ (got = [] → coming = GetFile.requestBytes user remoteName) := by
  cases turn with
  | asks whole => cases written rfl
  | waits =>
      refine ⟨?_, fun _ => rfl⟩
      rw [attend, Prog.received, replies.answers]
      exact .answers
  | acknowledged sized => exact ⟨.sends sized, fun nothing => by cases nothing⟩
  | answers | replied | sends | brings | acknowledges | marks | ended =>
      exact (not_takes_nil takes).elim

theorem turn_farSends {message : Bytes}
    (replies : Replies disk fileDirectory user remoteName reply near far)
    (turn : Turn disk fileDirectory user remoteName reply near far state unread thread coming got)
    (here : thread.call = some (.send message)) (read : state = .awaiting → unread = []) :
    unread = [] ∧ message ≠ [] ∧
      Turn disk fileDirectory user remoteName reply near far state message thread.sent coming
        got := by
  have some_bytes : reply ≠ [] := List.ne_nil_of_length_pos replies.sized.1
  cases turn with
  | answers =>
      cases here
      exact ⟨rfl, some_bytes, .replied⟩
  | replied => exact absurd (read rfl) some_bytes
  | @sends localFile r got rest sized =>
      cases rest with
      | nil =>
          cases here
          exact ⟨rfl, by decide, .marks⟩
      | cons fileChunk rest =>
          cases here
          exact ⟨rfl, (sized _ List.mem_cons_self).1, .brings sized⟩
  | ended _ silent => exact absurd here (silent message)
  | asks | waits | brings | acknowledges | acknowledged | marks => cases here

/-- The two sides take turns, and what `getfile` has not read is the last message. -/
structure InTurn (disk : Disk) (fileDirectory : Bytes) (user remoteName : String) (reply : Bytes)
    (near : GetFile) (far : Prog) (x : Link GetFile Prog) : Prop where
  turn : Turn disk fileDirectory user remoteName reply near far x.near.state x.near.unread
    x.far.state x.far.unread x.far.got
  whole : x.near.unread = [] ∧ x.far.put = x.near.got ∨
    x.near.unread ≠ [] ∧ x.far.put = x.near.got ++ [x.near.unread]

theorem inTurn_start : InTurn disk fileDirectory user remoteName reply near far
    (exchange disk fileDirectory user remoteName) :=
  ⟨@Turn.asks _ _ _ _ _ _ _ [] _ _ rfl, Or.inl ⟨rfl, rfl⟩⟩

theorem inTurn_step (replies : Replies disk fileDirectory user remoteName reply near far)
    (begins : ∀ read got, Turn disk fileDirectory user remoteName reply near far near [] far []
      (read :: got)) {x y : Link GetFile Prog} {act : Act}
    (inTurn : InTurn disk fileDirectory user remoteName reply near far x)
    (step : PromptStep x act y) : FetchStep (GetFile.requestBytes user remoteName) x act y ∧
      InTurn disk fileDirectory user remoteName reply near far y := by
  obtain ⟨turn, whole⟩ := inTurn
  obtain ⟨step, prompt⟩ := step
  cases step with
  | @nearReads call n here takes =>
      obtain rfl : n = x.near.unread.length := prompt
      obtain ⟨empty, -⟩ | ⟨-, last⟩ := whole
      · rw [empty] at takes
        exact (not_takes_nil takes).elim
      · have message : x.near.unread.take x.near.unread.length = x.near.unread := List.take_length
        refine ⟨⟨.nearReads here takes, ?_⟩, ?_, Or.inl ⟨List.drop_length, ?_⟩⟩
        · show x.near.got ++ [x.near.unread.take x.near.unread.length] <+: x.far.put
          rw [message, last]
        · simp only [Side.reads, GetFile.program, message, List.drop_length]
          exact turn_nearReads replies begins turn here takes
        · rw [Side.reads, message]
          exact last
  | nearSends here => exact ⟨⟨.nearSends here, trivial⟩, turn_nearSends turn here, whole⟩
  | @farReads call n here takes =>
      obtain ⟨rfl, written⟩ : n = x.far.unread.length ∧ _ := prompt
      have message : x.far.unread.take x.far.unread.length = x.far.unread := List.take_length
      obtain ⟨later, requested⟩ := turn_farReads replies turn here takes written
      refine ⟨⟨.farReads here takes, fun nothing => message.trans (requested nothing)⟩, ?_, whole⟩
      simp only [Side.reads, Prog.program, message, List.drop_length]
      exact later
  | @farSends message here =>
      obtain ⟨empty, some_bytes, later⟩ := turn_farSends replies turn here prompt
      obtain ⟨-, same⟩ | ⟨unread, -⟩ := whole
      · refine ⟨⟨.farSends here, trivial⟩, ?_, Or.inr ?_⟩
        · simp only [Side.gains, empty, List.nil_append]
          exact later
        · simp only [Side.gains, Side.sends, empty, List.nil_append, same]
          exact ⟨some_bytes, trivial⟩
      · exact absurd empty unread
  | nearRaises n here => exact prompt.elim
  | farRaises n here => exact prompt.elim

theorem turn_progress (replies : Replies disk fileDirectory user remoteName reply near far)
    (short : (GetFile.requestBytes user remoteName).length ≤ 256) {x : Link GetFile Prog}
    (inTurn : InTurn disk fileDirectory user remoteName reply near far x) :
    x.near.state.call = none ∨ ∃ act y, PromptStep x act y := by
  obtain ⟨⟨state, unread, got, put⟩, ⟨thread, coming, farGot, farPut⟩⟩ := x
  obtain ⟨turn, -⟩ := inTurn
  simp only at turn
  cases turn with
  | asks whole => exact Or.inr ⟨.near .sends, _, .nearSends rfl, trivial⟩
  | waits =>
      have takes : (Call.recv 256).Takes (GetFile.requestBytes user remoteName) _ :=
        ⟨requestBytes_pos, short, le_rfl⟩
      exact Or.inr ⟨.far (.reads _), _, .farReads rfl takes, rfl, fun _ => rfl⟩
  | answers => exact Or.inr ⟨.far .sends, _, .farSends rfl, fun _ => rfl⟩
  | replied =>
      have takes : (Call.recv 256).Takes reply _ := ⟨replies.sized.1, replies.sized.2, le_rfl⟩
      exact Or.inr ⟨.near (.reads _), _, .nearReads rfl takes, rfl⟩
  | @sends localFile read got rest sized =>
      obtain ⟨message, here⟩ := sendChunks_call rest
      exact Or.inr ⟨.far .sends, _, .farSends here, fun same => by cases same⟩
  | brings sized =>
      obtain ⟨some_bytes, fits⟩ := sized _ List.mem_cons_self
      have takes : (Call.recv 256).Takes unread _ :=
        ⟨List.length_pos_of_ne_nil some_bytes, fits, le_rfl⟩
      exact Or.inr ⟨.near (.reads _), _, .nearReads rfl takes, rfl⟩
  | acknowledges sized => exact Or.inr ⟨.near .sends, _, .nearSends rfl, trivial⟩
  | acknowledged sized =>
      have takes : (Call.recv 256).Takes okMessage 3 := ⟨by decide, by decide, by decide⟩
      exact Or.inr ⟨.far (.reads 3), _, .farReads rfl takes, rfl, fun nothing => by cases nothing⟩
  | marks =>
      have takes : (Call.recv 256).Takes finArchivo 11 := ⟨by decide, by decide, by decide⟩
      exact Or.inr ⟨.near (.reads 11), _, .nearReads rfl takes, rfl⟩
  | ended ended _ => exact Or.inl ended

theorem stuck_of_ended {x : Link GetFile Prog}
    (inTurn : InTurn disk fileDirectory user remoteName reply near far x)
    (ended : x.near.state.call = none) :
    Stuck (FetchStep (GetFile.requestBytes user remoteName)) x := by
  obtain ⟨⟨state, unread, got, put⟩, ⟨thread, coming, farGot, farPut⟩⟩ := x
  obtain ⟨turn, -⟩ := inTurn
  simp only at turn ended
  rintro act y ⟨step, fetches⟩
  cases turn with
  | ended _ silent =>
      cases step with
      | nearReads here _ | nearSends here => exact absurd (ended.symm.trans here) (by simp)
      | farReads here takes => exact not_takes_nil takes
      | farSends here => exact silent _ here
      | nearRaises n here => exact fetches
      | farRaises n here => exact fetches
  | asks | waits | answers | replied | sends | brings | acknowledges | acknowledged | marks =>
      cases ended

end Turns

/-! ## Runs -/

section Runs
variable {disk : Disk} {fileDirectory : Bytes} {user remoteName : String} {reply : Bytes}
  {near : GetFile} {far : Prog} {history : List Act} {x : Link GetFile Prog}

theorem prompt_run (replies : Replies disk fileDirectory user remoteName reply near far)
    (begins : ∀ read got, Turn disk fileDirectory user remoteName reply near far near [] far []
      (read :: got))
    (run : Run PromptStep (exchange disk fileDirectory user remoteName) history x) :
    InTurn disk fileDirectory user remoteName reply near far x ∧
      Run (FetchStep (GetFile.requestBytes user remoteName))
        (exchange disk fileDirectory user remoteName) history x :=
  run.invariant (P := fun history x => InTurn disk fileDirectory user remoteName reply near far x ∧
    Run (FetchStep (GetFile.requestBytes user remoteName))
      (exchange disk fileDirectory user remoteName) history x) ⟨inTurn_start, Run.start⟩
    fun ⟨inTurn, run⟩ step =>
      have moved := inTurn_step replies begins inTurn step
      ⟨moved.2, Run.next run moved.1⟩

theorem whole_of_prompt (replies : Replies disk fileDirectory user remoteName reply near far)
    (begins : ∀ read got, Turn disk fileDirectory user remoteName reply near far near [] far []
      (read :: got)) (short : (GetFile.requestBytes user remoteName).length ≤ 256)
    (run : Run PromptStep (exchange disk fileDirectory user remoteName) history x) :
    Run (FetchStep (GetFile.requestBytes user remoteName))
        (exchange disk fileDirectory user remoteName) history x ∧
      (Stuck PromptStep x → Stuck (FetchStep (GetFile.requestBytes user remoteName)) x) := by
  obtain ⟨inTurn, run⟩ := prompt_run replies begins run
  refine ⟨run, fun stuck => ?_⟩
  rcases turn_progress replies short inTurn with ended | ⟨act, y, step⟩
  · exact stuck_of_ended inTurn ended
  · exact absurd step (stuck act y)

/-- On a prompt network every message arrives whole, and the conversation does not
stop before it has come to its end. -/
theorem prompt_delivers_whole (plainUser : '\x00' ∉ user.toList)
    (plainName : '\x00' ∉ remoteName.toList)
    (short : (GetFile.requestBytes user remoteName).length ≤ 256)
    (opens : disk.pathExists (pathOf fileDirectory (encode remoteName)) =
      (disk.read (pathOf fileDirectory (encode remoteName))).isSome)
    (run : Run PromptStep (exchange disk fileDirectory user remoteName) history x) :
    Run (FetchStep (GetFile.requestBytes user remoteName))
        (exchange disk fileDirectory user remoteName) history x ∧
      (Stuck PromptStep x → Stuck (FetchStep (GetFile.requestBytes user remoteName)) x) := by
  cases read : disk.read (pathOf fileDirectory (encode remoteName)) with
  | none =>
      rw [read] at opens
      exact whole_of_prompt (replies_missing plainUser plainName opens)
        (fun _ _ => .ended rfl fun message here => by cases here) short run
  | some content =>
      rw [read] at opens
      exact whole_of_prompt (replies_found plainUser plainName ⟨opens, read⟩)
        (fun _ _ => .sends (chunk_size content)) short run

end Runs

theorem prompt_delivers_whole_notes : ∃ history x, Run PromptStep longLink history x ∧
    Stuck (FetchStep (GetFile.requestBytes "ana" "notes")) x ∧ x.near.state = .ok longNotes := by
  have whole : ∀ history x, Run PromptStep longLink history x →
      Run (FetchStep (GetFile.requestBytes "ana" "notes")) longLink history x ∧
        (Stuck PromptStep x → Stuck (FetchStep (GetFile.requestBytes "ana" "notes")) x) :=
    fun _ _ run =>
      prompt_delivers_whole (by decide) (by decide) requestBytes_notes long_opens run
  have comes : ∀ history x, Run PromptStep longLink history x →
      ComesToEnd (GetFile.requestBytes "ana" "notes") (some longNotes) history x :=
    fun history x run =>
      fetch_found (by decide) (by decide) requestBytes_notes long_there (whole history x run).1
  obtain ⟨history, x, run, stuck⟩ := exists_stuck fun history x run => (comes history x run).few
  have still := (whole history x run).2 stuck
  have ended := comes history x run
  refine ⟨history, x, run, still, ?_⟩
  rw [ended.right (ended.ends still)]
  decide +kernel

end DistrApp.Client
