import DistrApp.Library.Streams

/-!
# The thread that serves files to other clients

`handle_server_connection` of client.py: what it does on one connection, as a
program over its socket, and the loop around it.  One `try` encloses the loop,
so whatever raises an exception in it ends the thread.
-/

set_option autoImplicit false

namespace DistrApp.Client

open Text Streams

def decodes (bytes : Bytes) : Bool := (ByteArray.mk bytes.toArray).validateUTF8

/-- `os.path.exists(path)`, and what `open(path, 'rb')` lets one read; it may
raise an exception also for a path that exists. -/
structure Disk where
  pathExists : Bytes → Bool
  read : Bytes → Option Bytes

def chunksFuel : Nat → Bytes → List Bytes
  | 0, _ => []
  | fuel + 1, content =>
      if content = [] then [] else content.take 256 :: chunksFuel fuel (content.drop 256)

/-- What `remote_file.read(256)` returns until it returns nothing. -/
def chunks (content : Bytes) : List Bytes := chunksFuel content.length content

def finArchivo : Bytes := ascii "FINARCHIVO\x00"

def sendChunks : List Bytes → Prog
  | [] => .send finArchivo .done
  | fileChunk :: rest => .send fileChunk (.recv 256 fun _comprobacion => sendChunks rest)

/-- `with open(pathFile, 'rb') as remote_file` -/
def sendFile (disk : Disk) (pathFile : Bytes) : Prog :=
  match disk.read pathFile with
  | none => .failed
  | some content => sendChunks (chunks content)

/-- `parts[3]`; the index is out of range if there are fewer parts. -/
def remoteFileName (message : Bytes) : Option Bytes := (message.splitOn 0)[3]?

def pathOf (fileDirectory fileName : Bytes) : Bytes :=
  fileDirectory ++ ascii "/" ++ fileName ++ ascii ".txt"

/-- What follows the first `recv`. -/
def answerTo (disk : Disk) (fileDirectory message : Bytes) : Prog :=
  if decodes message = false then .failed
  else if (ascii "GET_FILE").isPrefixOf message then
    match remoteFileName message with
    | none => .failed
    | some fileName =>
        let pathFile := pathOf fileDirectory fileName
        if disk.pathExists pathFile then .send (ascii "0\x00") (sendFile disk pathFile)
        else .send (ascii "2\x00") .done
  else .done

/-- The body of the loop after `accept`. -/
def attend (disk : Disk) (fileDirectory : Bytes) : Prog := .recv 256 (answerTo disk fileDirectory)

/-! ## The loop -/

/-- A connection that is accepted: the disk it finds, what becomes of the calls
on it, and `client._isConnected` when it is over. -/
structure Visit where
  disk : Disk
  outcome : Nat → Outcome
  isConnected : Bool

inductive Thread
  | accepting
  | finished
  | left
  | waiting
  deriving DecidableEq

def handleServerConnection (fileDirectory : Bytes) : List Visit → Thread
  | [] => .accepting
  | visit :: rest =>
      match (attend visit.disk fileDirectory).against visit.outcome 0 with
      | .done => if visit.isConnected then handleServerConnection fileDirectory rest else .finished
      | .failed => .left
      | .blocked => .waiting

/-- The first message can be decoded; if it asks for a file, it has a name, the
path can be opened if it exists, and every call that follows returns. -/
def Harmless (fileDirectory : Bytes) (visit : Visit) : Prop :=
  ∃ message, visit.outcome 0 = .returns message ∧ decodes message = true ∧
    ((ascii "GET_FILE").isPrefixOf message = true → ∃ fileName, remoteFileName message = some fileName ∧
      if visit.disk.pathExists (pathOf fileDirectory fileName) then
        ∃ content, visit.disk.read (pathOf fileDirectory fileName) = some content ∧
          ∀ i < 2 * (chunks content).length + 2, (visit.outcome (1 + i)).Returns
      else (visit.outcome 1).Returns)

/-! ## What one connection takes -/

section Calls
variable {outcome : Nat → Outcome}

theorem sendChunks_done (fileChunks : List Bytes) :
    ∀ {i : Nat}, (sendChunks fileChunks).against outcome i = .done ↔
      ∀ j < 2 * fileChunks.length + 1, (outcome (i + j)).Returns := by
  induction fileChunks with
  | nil =>
      intro i
      rw [sendChunks, Prog.against_send]
      constructor
      · rintro ⟨returns, _⟩ j small
        obtain rfl : j = 0 := by simpa using small
        exact returns
      · intro returns
        exact ⟨returns 0 (by decide), rfl⟩
  | cons fileChunk rest ih =>
      intro i
      rw [sendChunks, Prog.against_send, Prog.against_recv, List.length_cons]
      constructor
      · rintro ⟨first, read, second, later⟩ j small
        rcases j with _ | _ | j
        · exact first
        · exact ⟨read, second⟩
        · have here := ih.mp later j (by omega)
          rwa [show i + 1 + 1 + j = i + (j + 1 + 1) by omega] at here
      · intro returns
        obtain ⟨read, second⟩ := returns 1 (by omega)
        refine ⟨returns 0 (by omega), read, second, ih.mpr fun j small => ?_⟩
        have here := returns (j + 2) (by omega)
        rwa [show i + (j + 2) = i + 1 + 1 + j by omega] at here

theorem sendFile_done {disk : Disk} {pathFile : Bytes} {i : Nat} :
    (sendFile disk pathFile).against outcome i = .done ↔
      ∃ content, disk.read pathFile = some content ∧
        ∀ j < 2 * (chunks content).length + 1, (outcome (i + j)).Returns := by
  rw [sendFile]
  cases disk.read pathFile with
  | none => simp [Prog.against]
  | some content => simp only [sendChunks_done, Option.some.injEq, exists_eq_left']

theorem attend_done (fileDirectory : Bytes) (visit : Visit) :
    (attend visit.disk fileDirectory).against visit.outcome 0 = .done ↔
      Harmless fileDirectory visit := by
  rw [attend, Prog.against_recv, Harmless]
  refine exists_congr fun message => and_congr_right fun _ => ?_
  rw [answerTo]
  by_cases readable : decodes message = true
  · rw [readable, if_neg (by decide)]
    by_cases asks : (ascii "GET_FILE").isPrefixOf message = true
    · rw [if_pos asks]
      cases name : remoteFileName message with
      | none => simp [Prog.against, asks]
      | some fileName =>
          simp only [asks, true_and, forall_const, Option.some.injEq, exists_eq_left']
          split
          · rw [Prog.against_send, sendFile_done]
            constructor
            · rintro ⟨first, content, read, later⟩
              refine ⟨content, read, fun j small => ?_⟩
              rcases j with _ | j
              · exact first
              · rw [← Nat.add_assoc, Nat.add_right_comm]
                exact later j (by omega)
            · rintro ⟨content, read, returns⟩
              refine ⟨returns 0 (by omega), content, read, fun j small => ?_⟩
              rw [show 0 + 1 + 1 + j = 1 + (j + 1) by omega]
              exact returns (j + 1) (by omega)
          · rw [Prog.against_send]
            exact and_iff_left rfl
    · simp [Prog.against, asks]
  · rw [Bool.not_eq_true] at readable
    simp [Prog.against, readable]

end Calls

/-- As long as the client is connected, the thread is back at `accept` after
each connection if and only if each of them is harmless. -/
theorem accepting_iff_harmless (fileDirectory : Bytes) {visits : List Visit}
    (connected : ∀ visit ∈ visits, visit.isConnected = true) :
    (∀ n ≤ visits.length, handleServerConnection fileDirectory (visits.take n) = .accepting) ↔
      ∀ visit ∈ visits, Harmless fileDirectory visit := by
  induction visits with
  | nil => simp [handleServerConnection]
  | cons visit rest ih =>
      have later := ih fun v member => connected v (List.mem_cons_of_mem _ member)
      have here := connected visit List.mem_cons_self
      rw [List.forall_mem_cons, ← later]
      constructor
      · intro accepting
        have first := accepting 1 (by simp)
        rw [List.take_succ_cons, List.take_zero, handleServerConnection] at first
        have done : (attend visit.disk fileDirectory).against visit.outcome 0 = .done := by
          split at first
          · assumption
          · cases first
          · cases first
        refine ⟨(attend_done fileDirectory visit).mp done, fun n inside => ?_⟩
        have next := accepting (n + 1) (by simpa using inside)
        rw [List.take_succ_cons, handleServerConnection, done, here] at next
        exact next
      · rintro ⟨harmless, accepting⟩ n inside
        rcases n with _ | n
        · rfl
        · rw [List.take_succ_cons, handleServerConnection,
            (attend_done fileDirectory visit).mpr harmless, here]
          exact accepting n (by simpa using inside)

def emptyDisk : Disk := ⟨fun _ => false, fun _ => none⟩

def sending (message : Bytes) : Visit :=
  ⟨emptyDisk, fun i => .returns (if i = 0 then message else []), true⟩

theorem accepting_iff_harmless_twice :
    handleServerConnection (ascii "files")
      (List.replicate 2 (sending (ascii "GET_FILE\x003\x00ana\x00notes\x00"))) = .accepting := by
  refine (@accepting_iff_harmless (ascii "files") (List.replicate 2 _) ?_).mpr ?_ 2 le_rfl
  · intro visit member
    rw [List.eq_of_mem_replicate member]
    rfl
  · intro visit member
    rw [List.eq_of_mem_replicate member]
    refine ⟨_, rfl, by decide +kernel, fun _ => ⟨ascii "notes", by decide +kernel, ?_⟩⟩
    exact ⟨[], rfl⟩

/-- A request cut off after its first field: `parts[2]` is out of range. -/
theorem cut_request_ends_thread :
    ¬ ∀ (fileDirectory : Bytes) (visits : List Visit),
      (∀ visit ∈ visits, visit.isConnected = true) → ∀ n ≤ visits.length,
        handleServerConnection fileDirectory (visits.take n) = .accepting := by
  intro accepting
  have ends := accepting (ascii "files") [sending (ascii "GET_FILE\x00")] (by simp [sending]) 1 (by simp)
  revert ends
  decide +kernel

end DistrApp.Client
