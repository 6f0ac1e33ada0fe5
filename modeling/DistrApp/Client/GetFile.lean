import DistrApp.Client.PeerServer
import DistrApp.Client.Requests

/-!
# GET_FILE between two clients

`getfile` on one side and the thread of the other client on the other, with the
two byte streams between them.  The reply and the first chunk are sent without
an acknowledgement in between, so the first `recv` of `getfile` may take more or
less than the reply: exactly the files for which it does not arrive whole.
-/

set_option autoImplicit false

namespace DistrApp.Client

open Text Streams Effects

/-- Where `getfile` is, with the bytes written to the local file. -/
inductive GetFile
  | sending (message : Bytes) (rest : List Bytes)
  | awaiting
  | receiving (localFile : Bytes)
  | acknowledging (localFile : Bytes)
  /-- `GET_FILE OK` is printed. -/
  | ok (localFile : Bytes)
  | notFound
  | fail
  | raised
  deriving DecidableEq

namespace GetFile

def call : GetFile → Option Call
  | sending message _ => some (.send message)
  | awaiting => some (.recv 256)
  | receiving _ => some (.recv 256)
  | acknowledging _ => some (.send (encode "OK\x00"))
  | _ => none

def received : GetFile → Bytes → GetFile
  | awaiting, respuesta =>
      if decodes respuesta = false then raised
      else match respuesta.head? with
        | none => raised
        | some digit => if digit = 48 then receiving [] else if digit = 50 then notFound else fail
  | receiving localFile, fileChunk =>
      if fileChunk = finArchivo then ok localFile else acknowledging (localFile ++ fileChunk)
  | state, _ => state

def sent : GetFile → GetFile
  | sending _ (message :: rest) => sending message rest
  | sending _ [] => awaiting
  | acknowledging localFile => receiving localFile
  | state => state

def program : Program GetFile where
  call := call
  received := received
  sent := sent
  raised := fun _ => raised

theorem received_awaiting (respuesta : Bytes) :
    received awaiting respuesta = receiving [] ∨ received awaiting respuesta = notFound ∨
      received awaiting respuesta = fail ∨ received awaiting respuesta = raised := by
  rw [received]
  split
  · simp
  · split
    · simp
    · split
      · simp
      · split <;> simp

def request (user remoteFileName : String) : List Bytes :=
  [field (toString user.length), field user, field remoteFileName]

def start (user remoteFileName : String) : GetFile :=
  sending (encode "GET_FILE\x00") (request user remoteFileName)

def requestBytes (user remoteFileName : String) : Bytes :=
  encode "GET_FILE\x00" ++ (request user remoteFileName).flatten

end GetFile

def exchange (disk : Disk) (fileDirectory : Bytes) (user remoteFileName : String) :
    Link GetFile Prog :=
  ⟨Side.start (GetFile.start user remoteFileName), Side.start (attend disk fileDirectory)⟩

def Disk.Has (disk : Disk) (path content : Bytes) : Prop :=
  disk.pathExists path = true ∧ disk.read path = some content

/-! ## The end marker -/

theorem marker_not_inside {file before more : Bytes} (free : ¬ finArchivo <:+: file) :
    before ++ (finArchivo ++ more) ≠ ascii "0\x00" ++ file := by
  intro here
  rcases List.append_eq_append_iff.mp here with ⟨start, reply, rest⟩ | ⟨start, _, rest⟩
  · cases start with
    | nil => exact free ⟨[], more, by simpa using rest⟩
    | cons b start =>
        have first : (70 : UInt8) = b := (List.cons.inj rest).1
        have member : (70 : UInt8) ∈ ascii "0\x00" := by
          rw [reply, first]
          exact List.mem_append_right _ List.mem_cons_self
        exact absurd member (by decide)
  · exact free ⟨start, more, by rw [rest, List.append_assoc]⟩

/-- The marker ends where the stream does, if the file does not contain it. -/
theorem marker_last {file before after : Bytes} (free : ¬ finArchivo <:+: file)
    (same : before ++ finArchivo ++ after = ascii "0\x00" ++ file ++ finArchivo) :
    before = ascii "0\x00" ++ file := by
  rcases List.append_eq_append_iff.mp same with ⟨more, whole, _⟩ | ⟨start, whole, marker⟩
  · rw [List.append_assoc] at whole
    exact absurd whole.symm (marker_not_inside free)
  · cases after with
    | nil =>
        rw [List.append_nil] at marker
        rw [← marker] at whole
        exact List.append_cancel_right whole
    | cons b after =>
        exfalso
        rcases List.eq_nil_or_concat start with rfl | ⟨init, last, rfl⟩
        · rw [List.append_nil] at whole
          exact @marker_not_inside file _ [] free (by rw [List.append_nil]; exact whole)
        · -- the NUL that ends one occurrence would lie inside the other
          rw [List.concat_eq_append] at whole marker
          have ends := congrArg List.getLast? whole
          rw [← List.append_assoc, List.getLast?_append, List.getLast?_append] at ends
          have nul : last = 0 := by simpa [show finArchivo.getLast? = some 0 by decide] using ends.symm
          have member : last ∈ finArchivo.dropLast := by
            rw [marker, List.dropLast_append_of_ne_nil (by simp)]
            simp
          rw [nul] at member
          exact absurd member (by decide)

/-! ## What each side has read and written -/

/-- `getfile` has read its reply and then the file, and has sent nothing but its
request before. -/
structure Receives (requested : Bytes) (first : Option Nat) (s : Side GetFile) : Prop where
  read : match s.state with
    | .sending _ _ => s.got = [] ∧ first = none
    | .awaiting => s.got = [] ∧ first = none
    | .receiving localFile | .acknowledging localFile => ∃ respuesta fileChunks,
        s.got = respuesta :: fileChunks ∧ fileChunks.flatten = localFile ∧
          first = some respuesta.length
    | .ok localFile => ∃ respuesta fileChunks,
        s.got = respuesta :: (fileChunks ++ [finArchivo]) ∧ fileChunks.flatten = localFile ∧
          first = some respuesta.length
    | _ => True
  wrote : s.got = [] → match s.state with
    | .sending message rest => s.put.flatten ++ (message ++ rest.flatten) = requested
    | _ => ∃ rest, s.put.flatten ++ rest = requested

theorem receives_start (user remoteFileName : String) :
    Receives (GetFile.requestBytes user remoteFileName) none
      (Side.start (GetFile.start user remoteFileName)) :=
  ⟨⟨rfl, rfl⟩, fun _ => rfl⟩

theorem receives_gains {requested : Bytes} {first : Option Nat} {s : Side GetFile}
    (receives : Receives requested first s) (bytes : Bytes) :
    Receives requested first (s.gains bytes) := ⟨receives.read, receives.wrote⟩

theorem receives_reads {requested : Bytes} {first : Option Nat} {s : Side GetFile}
    (receives : Receives requested first s) {call : Call} {n : Nat}
    (here : s.state.call = some call) (takes : call.Takes s.unread n) :
    Receives requested (first.or (some n)) (s.reads GetFile.program n) := by
  obtain ⟨state, unread, got, put⟩ := s
  obtain ⟨read, wrote⟩ := receives
  have size := takes.length
  simp only [Side.reads, GetFile.program]
  cases state with
  | sending message rest =>
      cases here
      exact takes.elim
  | awaiting =>
      obtain ⟨rfl, rfl⟩ := read
      refine ⟨?_, fun empty => absurd empty (by simp)⟩
      rcases GetFile.received_awaiting (unread.take n) with same | same | same | same
      · rw [same]
        exact ⟨unread.take n, [], rfl, rfl, by rw [size, Option.none_or]⟩
      · rw [same]
        trivial
      · rw [same]
        trivial
      · rw [same]
        trivial
  | receiving localFile =>
      obtain ⟨respuesta, fileChunks, rfl, rfl, rfl⟩ := read
      refine ⟨?_, fun empty => absurd empty (by simp)⟩
      by_cases marker : unread.take n = finArchivo
      · simp only [GetFile.received, if_pos marker]
        exact ⟨respuesta, fileChunks, by rw [marker]; rfl, rfl, rfl⟩
      · simp only [GetFile.received, if_neg marker]
        exact ⟨respuesta, fileChunks ++ [unread.take n], rfl, by simp, rfl⟩
  | acknowledging localFile =>
      cases here
      exact takes.elim
  | ok _ | notFound | fail | raised => cases here

theorem receives_sends {requested message : Bytes} {first : Option Nat} {s : Side GetFile}
    (receives : Receives requested first s) (here : s.state.call = some (.send message)) :
    Receives requested first (s.sends GetFile.program message) := by
  obtain ⟨state, unread, got, put⟩ := s
  obtain ⟨read, wrote⟩ := receives
  simp only [Side.sends, GetFile.program]
  cases state with
  | sending m rest =>
      cases here
      refine ⟨?_, fun fresh => ?_⟩
      · cases rest <;> exact read
      · have whole := wrote fresh
        cases rest with
        | nil => exact ⟨[], by simpa using whole⟩
        | cons later rest => simpa [GetFile.sent] using whole
  | acknowledging localFile =>
      obtain ⟨respuesta, fileChunks, rfl, same, counted⟩ := read
      exact ⟨⟨respuesta, fileChunks, rfl, same, counted⟩, fun empty => absurd empty (by simp)⟩
  | awaiting | receiving _ | ok _ | notFound | fail | raised => cases here

theorem receives_raises {requested : Bytes} {first : Option Nat} {s : Side GetFile}
    (receives : Receives requested first s) {call : Call} (n : Nat)
    (here : s.state.call = some call) :
    Receives requested first (s.raises GetFile.program (call.partly n)) := by
  obtain ⟨state, unread, got, put⟩ := s
  obtain ⟨read, wrote⟩ := receives
  refine ⟨trivial, fun fresh => ?_⟩
  cases state with
  | sending message rest =>
      cases here
      refine ⟨message.drop n ++ rest.flatten, ?_⟩
      have whole := wrote fresh
      simp only at whole
      simp [Side.raises, Call.partly, ← whole, ← List.append_assoc (message.take n)]
  | awaiting =>
      cases here
      obtain ⟨rest, whole⟩ := wrote fresh
      exact ⟨rest, by simpa [Side.raises, Call.partly] using whole⟩
  | receiving localFile | acknowledging localFile =>
      obtain ⟨respuesta, fileChunks, rfl, -, -⟩ := read
      exact absurd fresh (by simp [Side.raises])
  | ok _ | notFound | fail | raised => cases here

/-- The thread waits for the request, or it writes the reply, the file and the
marker, if the first read has brought the name of the file. -/
def Serves (disk : Disk) (fileDirectory requested fileName file : Bytes) (first : Option Nat)
    (s : Side Prog) : Prop :=
  s.state = attend disk fileDirectory ∧ s.got = [] ∧ s.put = [] ∧ first = none ∨
    ((∀ n, first = some n → remoteFileName (requested.take n) = some fileName) →
      ∃ rest, s.put.flatten ++ rest = ascii "0\x00" ++ file ++ finArchivo ∧
        (s.state.Emits rest ∨ s.state.call = none))

section Serving
variable {disk : Disk} {fileDirectory requested fileName file : Bytes} {first : Option Nat}
  {s : Side Prog}

theorem chunks_flatten (content : Bytes) : (chunks content).flatten = content := by
  have whole : ∀ (fuel : Nat) (content : Bytes), content.length ≤ fuel →
      (chunksFuel fuel content).flatten = content := by
    intro fuel
    induction fuel with
    | zero =>
        intro content short
        rw [List.eq_nil_of_length_eq_zero (Nat.le_zero.mp short)]
        rfl
    | succ fuel ih =>
        intro content short
        rw [chunksFuel]
        split
        · rename_i empty
          rw [empty]
          rfl
        · rename_i some_bytes
          have positive := List.length_pos_of_ne_nil some_bytes
          rw [List.flatten_cons, ih _ (by rw [List.length_drop]; omega), List.take_append_drop]
  exact whole _ content le_rfl

theorem emits_sendChunks (fileChunks : List Bytes) :
    (sendChunks fileChunks).Emits (fileChunks.flatten ++ finArchivo) := by
  induction fileChunks with
  | nil =>
      rw [sendChunks, List.flatten_nil, List.nil_append, ← List.append_nil finArchivo]
      exact Prog.Emits.send Prog.Emits.done
  | cons fileChunk rest ih =>
      rw [sendChunks, List.flatten_cons, List.append_assoc]
      exact Prog.Emits.send (Prog.Emits.recv fun _ => ih)

theorem answerTo_emits {message : Bytes} (there : disk.Has (pathOf fileDirectory fileName) file)
    (named : remoteFileName message = some fileName) :
    (answerTo disk fileDirectory message).Emits (ascii "0\x00" ++ file ++ finArchivo) ∨
      (answerTo disk fileDirectory message).call = none := by
  rw [answerTo]
  split
  · exact Or.inr rfl
  · split
    · rw [named]
      simp only [there.1, if_true]
      rw [sendFile, there.2, List.append_assoc]
      refine Or.inl (Prog.Emits.send ?_)
      have written := emits_sendChunks (chunks file)
      rwa [chunks_flatten] at written
    · exact Or.inr rfl

theorem serves_reads (serves : Serves disk fileDirectory requested fileName file first s)
    (there : disk.Has (pathOf fileDirectory fileName) file) {call : Call} {n : Nat}
    (here : s.state.call = some call)
    (arrived : s.got = [] → s.put = [] → s.unread.take n = requested.take n) :
    Serves disk fileDirectory requested fileName file (first.or (some n)) (s.reads Prog.program n) := by
  right
  intro named
  rcases serves with ⟨waiting, got, put, rfl⟩ | serves
  · refine ⟨ascii "0\x00" ++ file ++ finArchivo, by simp [Side.reads, put], ?_⟩
    simp only [Side.reads, Prog.program, waiting, attend, Prog.received, arrived got put]
    exact answerTo_emits there (named n (by simp))
  · obtain ⟨rest, whole, goesOn⟩ := serves fun m same => named m (by rw [same]; rfl)
    refine ⟨rest, whole, goesOn.imp (fun emits => emits.received _) fun ended => ?_⟩
    rw [ended] at here
    cases here

theorem serves_sends (serves : Serves disk fileDirectory requested fileName file first s)
    {message : Bytes} (here : s.state.call = some (.send message)) :
    Serves disk fileDirectory requested fileName file first (s.sends Prog.program message) := by
  right
  intro named
  rcases serves with ⟨waiting, _⟩ | serves
  · rw [waiting] at here
    cases here
  · obtain ⟨rest, whole, emits | ended⟩ := serves named
    · obtain ⟨later, rfl, after⟩ := emits.sent here
      exact ⟨later, by simpa [Side.sends] using whole, Or.inl after⟩
    · rw [ended] at here
      cases here

theorem serves_raises (serves : Serves disk fileDirectory requested fileName file first s)
    {call : Call} (n : Nat) (here : s.state.call = some call) :
    Serves disk fileDirectory requested fileName file first
      (s.raises Prog.program (call.partly n)) := by
  right
  intro named
  rcases serves with ⟨waiting, _, put, _⟩ | serves
  · rw [waiting] at here
    cases here
    exact ⟨_, by simp [Side.raises, Call.partly, put]; rfl, Or.inr rfl⟩
  · obtain ⟨rest, whole, emits | ended⟩ := serves named
    · cases call with
      | recv limit => exact ⟨rest, by simpa [Side.raises, Call.partly] using whole, Or.inr rfl⟩
      | line ends => exact ⟨rest, by simpa [Side.raises, Call.partly] using whole, Or.inr rfl⟩
      | send message =>
          obtain ⟨later, rfl, _⟩ := emits.sent here
          refine ⟨message.drop n ++ later, ?_, Or.inr rfl⟩
          simp only [Side.raises, Call.partly, List.flatten_append, List.flatten_cons,
            List.flatten_nil, List.append_nil]
          rw [← whole]
          simp [← List.append_assoc (message.take n)]
    · rw [ended] at here
      cases here

end Serving

/-! ## The exchange -/

section Exchange
variable {disk : Disk} {fileDirectory file : Bytes} {user remoteName : String}

structure Exchanged (disk : Disk) (fileDirectory file : Bytes) (user remoteName : String)
    (history : List Act) (x : Link GetFile Prog) : Prop where
  conserved : Conserved x
  client : Receives (GetFile.requestBytes user remoteName) (firstNear history) x.near
  peer : Serves disk fileDirectory (GetFile.requestBytes user remoteName) (encode remoteName) file
    (firstFar history) x.far

theorem Receives.beginning {requested : Bytes} {first : Option Nat} {s : Side GetFile}
    (receives : Receives requested first s) (fresh : s.got = []) :
    ∃ rest, s.put.flatten ++ rest = requested := by
  have whole := receives.wrote fresh
  split at whole
  · exact ⟨_, whole⟩
  · exact whole

theorem request_arrived {requested : Bytes} {first : Option Nat} {x : Link GetFile Prog}
    (conserved : Conserved x) (client : Receives requested first x.near) {call : Call} {n : Nat}
    (takes : call.Takes x.far.unread n) (got : x.far.got = []) (put : x.far.put = []) :
    x.far.unread.take n = requested.take n := by
  have silent := conserved.toNear
  rw [put, List.flatten_nil, List.append_eq_nil_iff] at silent
  have fresh : x.near.got = [] := by
    rcases nothing : x.near.got with _ | ⟨read, reads⟩
    · rfl
    · have empty : read = [] := by
        rw [nothing, List.flatten_cons, List.append_eq_nil_iff] at silent
        exact silent.1.1
      exact absurd empty (conserved.nearGot read (by rw [nothing]; exact List.mem_cons_self))
  obtain ⟨rest, whole⟩ := client.beginning fresh
  have unread := conserved.toFar
  rw [got, List.flatten_nil, List.nil_append] at unread
  have inside : n ≤ x.far.unread.length := by
    have size := takes.length
    rw [List.length_take] at size
    omega
  rw [← whole, ← unread, List.take_append_of_le_length inside]

theorem receives_step {requested : Bytes} {history : List Act} {x y : Link GetFile Prog} {act : Act}
    (receives : Receives requested (firstNear history) x.near)
    (step : Step GetFile.program Prog.program x act y) :
    Receives requested (firstNear (history ++ [act])) y.near := by
  rw [firstNear_concat]
  cases step with
  | nearReads here takes => exact receives_reads receives here takes
  | nearSends here =>
      rw [Option.or_none]
      exact receives_sends receives here
  | nearRaises n here =>
      rw [Option.or_none]
      exact receives_raises receives n here
  | farReads here takes =>
      rw [Option.or_none]
      exact receives
  | farSends here =>
      rw [Option.or_none]
      exact receives_gains receives _
  | farRaises n here =>
      rw [Option.or_none]
      exact receives_gains receives _

theorem exchanged_step (there : disk.Has (pathOf fileDirectory (encode remoteName)) file)
    {history : List Act} {x y : Link GetFile Prog} {act : Act}
    (exchanged : Exchanged disk fileDirectory file user remoteName history x)
    (step : Step GetFile.program Prog.program x act y) :
    Exchanged disk fileDirectory file user remoteName (history ++ [act]) y := by
  refine ⟨conserved_step exchanged.conserved step, receives_step exchanged.client step, ?_⟩
  have peer := exchanged.peer
  rw [firstFar_concat]
  cases step with
  | nearReads here takes =>
      rw [Option.or_none]
      exact peer
  | nearSends here =>
      rw [Option.or_none]
      exact peer
  | nearRaises n here =>
      rw [Option.or_none]
      exact peer
  | farReads here takes =>
      exact serves_reads peer there here
        (request_arrived exchanged.conserved exchanged.client takes)
  | farSends here =>
      rw [Option.or_none]
      exact serves_sends peer here
  | farRaises n here =>
      rw [Option.or_none]
      exact serves_raises peer n here

theorem exchanged_run (there : disk.Has (pathOf fileDirectory (encode remoteName)) file)
    {history : List Act} {x : Link GetFile Prog}
    (run : Run (Step GetFile.program Prog.program) (exchange disk fileDirectory user remoteName)
      history x) : Exchanged disk fileDirectory file user remoteName history x :=
  run.invariant ⟨conserved_start _ _, receives_start user remoteName, Or.inl ⟨rfl, rfl, rfl, rfl⟩⟩
    fun exchanged step => exchanged_step there exchanged step

/-- Whenever `GET_FILE OK` is printed, the local file is the remote one if and
only if the first `recv` has taken exactly the two bytes of the reply. -/
theorem getfile_exact_iff (there : disk.Has (pathOf fileDirectory (encode remoteName)) file)
    (free : ¬ finArchivo <:+: file) {history : List Act} {x : Link GetFile Prog}
    (run : Run (Step GetFile.program Prog.program) (exchange disk fileDirectory user remoteName)
      history x)
    (named : ∀ n, firstFar history = some n →
      remoteFileName ((GetFile.requestBytes user remoteName).take n) = some (encode remoteName))
    {localFile : Bytes} (printed : x.near.state = .ok localFile) :
    localFile = file ↔ firstNear history = some 2 := by
  obtain ⟨conserved, client, peer⟩ := exchanged_run there run
  have read := client.read
  rw [printed] at read
  obtain ⟨respuesta, fileChunks, got, rfl, first⟩ := read
  have toNear := conserved.toNear
  rw [got] at toNear
  rcases peer with ⟨_, _, put, _⟩ | serves
  · rw [put] at toNear
    have marker : finArchivo ≠ [] := by decide
    simp [marker] at toNear
  · obtain ⟨rest, whole, _⟩ := serves named
    have stream : respuesta ++ fileChunks.flatten ++ finArchivo ++ (x.near.unread ++ rest) =
        ascii "0\x00" ++ file ++ finArchivo := by
      rw [← whole, ← toNear]
      simp
    have prefixes := marker_last free stream
    rw [first, Option.some.injEq]
    constructor
    · rintro rfl
      have lengths := congrArg List.length prefixes
      simpa [show (ascii "0\x00").length = 2 by decide] using lengths
    · intro two
      exact (List.append_inj prefixes (by rw [two]; decide)).2

end Exchange

def oneFile (path content : Bytes) : Disk :=
  ⟨fun other => other = path, fun other => if other = path then some content else none⟩

def fetchNotes (reply : Nat) : List Act :=
  [.near .sends, .near .sends, .near .sends, .near .sends, .far (.reads 21), .far .sends, .far .sends,
    .near (.reads reply), .near (.reads (4 - reply)), .near .sends, .far (.reads 3), .far .sends,
    .near (.reads 11)]

def notesLink : Link GetFile Prog :=
  exchange (oneFile (pathOf (ascii "files") (encode "notes")) (ascii "hi")) (ascii "files") "ana" "notes"

theorem notes_there : (oneFile (pathOf (ascii "files") (encode "notes")) (ascii "hi")).Has
    (pathOf (ascii "files") (encode "notes")) (ascii "hi") := by
  constructor <;> simp [oneFile]

theorem getfile_exact_iff_notes : ∃ history x localFile,
    Run (Step GetFile.program Prog.program) notesLink history x ∧ x.near.state = .ok localFile ∧
      (localFile = ascii "hi" ↔ firstNear history = some 2) := by
  have printed : (advanceAll GetFile.program Prog.program notesLink (fetchNotes 2)).map
      (fun x => x.near.state) = some (.ok (ascii "hi")) := by decide +kernel
  obtain ⟨x, run, ended⟩ := Option.map_eq_some_iff.mp printed
  refine ⟨fetchNotes 2, x, ascii "hi", run_of_advanceAll run, ended, ?_⟩
  refine getfile_exact_iff notes_there (by decide) (run_of_advanceAll run) (fun n first => ?_) ended
  cases first
  decide +kernel

/-- The first `recv` takes a byte of the file along: it is missing in the local file. -/
theorem reply_takes_first_byte :
    ¬ ∀ (disk : Disk) (fileDirectory file : Bytes) (user remoteName : String) (history : List Act)
      (x : Link GetFile Prog), disk.Has (pathOf fileDirectory (encode remoteName)) file →
      ¬ finArchivo <:+: file → Run (Step GetFile.program Prog.program)
        (exchange disk fileDirectory user remoteName) history x →
      ∀ localFile, x.near.state = .ok localFile → localFile = file := by
  intro always
  have printed : (advanceAll GetFile.program Prog.program notesLink (fetchNotes 3)).map
      (fun x => x.near.state) = some (.ok (ascii "i")) := by decide +kernel
  obtain ⟨x, run, ended⟩ := Option.map_eq_some_iff.mp printed
  have same := always _ _ _ "ana" "notes" _ x notes_there (by decide) (run_of_advanceAll run) _ ended
  exact absurd same (by decide)

end DistrApp.Client
