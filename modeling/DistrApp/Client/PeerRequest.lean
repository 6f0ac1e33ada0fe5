import DistrApp.Client.GetFile
import DistrApp.Client.Strings

/-!
# The request as the other client reads it

`getfile` writes its request in four messages and the thread reads it with one
`recv`, which returns any beginning of it.  The name of the file is whole if and
only if its last byte has arrived by then.
-/

set_option autoImplicit false

namespace DistrApp.Client

open Text Streams Effects

/-! ## Fields up to a separator -/

def terminated (fields : List Bytes) : Bytes := fields.flatMap (· ++ [0])

theorem terminated_cons (first : Bytes) (fields : List Bytes) :
    terminated (first :: fields) = first ++ 0 :: terminated fields := by
  simp [terminated]

theorem splitOn_terminated {fields : List Bytes} (plain : ∀ part ∈ fields, (0 : UInt8) ∉ part)
    (rest : Bytes) : (terminated fields ++ rest).splitOn 0 = fields ++ rest.splitOn 0 := by
  induction fields with
  | nil => rfl
  | cons first fields ih =>
      rw [terminated_cons, List.append_assoc, List.cons_append,
        List.splitOn_append_cons_self_of_not_mem (plain first List.mem_cons_self),
        ih fun part member => plain part (List.mem_cons_of_mem _ member), List.cons_append]

theorem length_splitOn_take {fields : List Bytes} (plain : ∀ part ∈ fields, (0 : UInt8) ∉ part)
    (rest : Bytes) : ∀ n < (terminated fields).length,
      (((terminated fields ++ rest).take n).splitOn 0).length ≤ fields.length := by
  induction fields with
  | nil => exact fun n short => absurd short (Nat.not_lt_zero n)
  | cons first fields ih =>
      intro n short
      have alone := plain first List.mem_cons_self
      rw [terminated_cons, List.length_append, List.length_cons] at short
      rw [terminated_cons, List.append_assoc, List.cons_append, List.take_append, List.length_cons]
      by_cases inside : n ≤ first.length
      · have whole : (0 : UInt8) ∉ first.take n := fun member => alone (List.mem_of_mem_take member)
        rw [Nat.sub_eq_zero_of_le inside, List.take_zero, List.append_nil,
          List.splitOn_eq_singleton whole]
        simp
      · obtain ⟨m, past⟩ : ∃ m, n - first.length = m + 1 := ⟨n - first.length - 1, by omega⟩
        rw [List.take_of_length_le (by omega), past, List.take_succ_cons,
          List.splitOn_append_cons_self_of_not_mem alone, List.length_cons]
        exact Nat.succ_le_succ (ih (fun part member => plain part (List.mem_cons_of_mem _ member)) m
          (by omega))

theorem splitOn_take_last {name : Bytes} (plain : (0 : UInt8) ∉ name) (m : Nat) :
    (((name ++ [0]).take m).splitOn 0)[0]? = some (name.take m) := by
  rw [List.take_append]
  by_cases inside : m ≤ name.length
  · have whole : (0 : UInt8) ∉ name.take m := fun member => plain (List.mem_of_mem_take member)
    rw [Nat.sub_eq_zero_of_le inside, List.take_zero, List.append_nil,
      List.splitOn_eq_singleton whole]
    rfl
  · obtain ⟨k, past⟩ : ∃ k, m - name.length = k + 1 := ⟨m - name.length - 1, by omega⟩
    rw [List.take_of_length_le (by omega), past, List.take_succ_cons, List.take_nil,
      List.splitOn_append_cons_self_of_not_mem plain]
    rfl

/-! ## The request -/

section Request
variable {user remoteName : String}

def requestFields (user : String) : List Bytes :=
  [encode "GET_FILE", encode (toString user.length), encode user]

theorem requestBytes_eq (user remoteName : String) :
    GetFile.requestBytes user remoteName =
      terminated (requestFields user) ++ (encode remoteName ++ [0]) := by
  have nul : encode "\x00" = [0] := by decide
  have command : encode "GET_FILE\x00" = encode "GET_FILE" ++ [0] := by decide
  rw [GetFile.requestBytes, command]
  simp [GetFile.request, field, terminated, requestFields, nul]

/-- Where the name of the file ends in the request. -/
def nameEnd (user remoteName : String) : Nat :=
  (terminated (requestFields user)).length + (encode remoteName).length

theorem requestFields_plain (plain : '\x00' ∉ user.toList) :
    ∀ part ∈ requestFields user, (0 : UInt8) ∉ part := by
  have digits : (0 : UInt8) ∉ encode (toString user.length) :=
    notMem_encode (c := '\x00') (by decide) (by decide) fun member =>
      absurd (isDigit_toString member) (by decide)
  intro part member
  simp only [requestFields, List.mem_cons, List.not_mem_nil, or_false] at member
  rcases member with rfl | rfl | rfl
  · decide
  · exact digits
  · exact notMem_encode (by decide) (by decide) plain

theorem remoteFileName_take_iff (plainUser : '\x00' ∉ user.toList)
    (plainName : '\x00' ∉ remoteName.toList) (n : Nat) :
    remoteFileName ((GetFile.requestBytes user remoteName).take n) = some (encode remoteName) ↔
      nameEnd user remoteName ≤ n := by
  have fields := requestFields_plain plainUser
  have name : (0 : UInt8) ∉ encode remoteName := notMem_encode (by decide) (by decide) plainName
  rw [requestBytes_eq, remoteFileName, nameEnd]
  by_cases short : n < (terminated (requestFields user)).length
  · have few := length_splitOn_take fields (encode remoteName ++ [0]) n short
    rw [List.getElem?_eq_none (by exact few)]
    exact iff_of_false (by simp) (by omega)
  · obtain ⟨m, rfl⟩ := Nat.exists_eq_add_of_le (Nat.not_lt.mp short)
    rw [List.take_length_add_append, splitOn_terminated fields,
      List.getElem?_append_right (by exact le_rfl)]
    have last := splitOn_take_last name m
    rw [show 3 - (requestFields user).length = 0 by rfl, last, Option.some.injEq,
      List.take_eq_self_iff]
    omega

theorem encode_request (user remoteName : String) :
    terminated (requestFields user) ++ encode remoteName =
      encode ("GET_FILE\x00" ++ toString user.length ++ "\x00" ++ user ++ "\x00" ++ remoteName) := by
  have nul : encode "\x00" = [0] := by decide
  have command : encode "GET_FILE\x00" = encode "GET_FILE" ++ [0] := by decide
  simp only [encode_append, command, nul]
  simp [terminated, requestFields]

theorem request_whole {n : Nat} (whole : nameEnd user remoteName ≤ n) :
    decodes ((GetFile.requestBytes user remoteName).take n) = true ∧
      (ascii "GET_FILE").isPrefixOf ((GetFile.requestBytes user remoteName).take n) = true := by
  obtain ⟨m, rfl⟩ := Nat.exists_eq_add_of_le whole
  have ends : encode "\x00" = [0] := by decide
  have read : (GetFile.requestBytes user remoteName).take (nameEnd user remoteName + m) =
      terminated (requestFields user) ++ encode remoteName ++ [(0 : UInt8)].take m := by
    rw [requestBytes_eq, ← List.append_assoc, nameEnd, ← List.length_append,
      List.take_length_add_append]
  rw [read]
  constructor
  · rw [encode_request]
    cases m with
    | zero => rw [List.take_zero, List.append_nil, decodes_encode]
    | succ m => rw [List.take_succ_cons, List.take_nil, ← ends, ← encode_append, decodes_encode]
  · rw [List.isPrefixOf_iff_prefix, requestFields, terminated_cons, List.append_assoc,
      List.append_assoc]
    exact List.prefix_append _ _

end Request

/-! ## What the thread looks up -/

/-- The path that `os.path.exists` is asked about, if it comes to that. -/
def lookedUp (fileDirectory message : Bytes) : Option Bytes :=
  if decodes message = true ∧ (ascii "GET_FILE").isPrefixOf message = true then
    (remoteFileName message).map (pathOf fileDirectory)
  else none

/-- Two disks on which this path is the same are the same for the thread. -/
theorem answerTo_congr {disk disk' : Disk} {fileDirectory message : Bytes}
    (same : ∀ path, lookedUp fileDirectory message = some path →
      disk.pathExists path = disk'.pathExists path ∧ disk.read path = disk'.read path) :
    answerTo disk fileDirectory message = answerTo disk' fileDirectory message := by
  rw [answerTo, answerTo]
  split
  · rfl
  · rename_i readable
    split
    · rename_i asks
      cases named : remoteFileName message with
      | none => rfl
      | some fileName =>
          obtain ⟨there, content⟩ := same (pathOf fileDirectory fileName) (by
            rw [lookedUp, if_pos ⟨by simpa using readable, asks⟩, named, Option.map_some])
          simp only [sendFile, there, content]
    · rfl

/-! ## Runs -/

section Runs
variable {disk : Disk} {fileDirectory : Bytes} {user remoteName : String}

structure Asked (disk : Disk) (fileDirectory : Bytes) (user remoteName : String)
    (history : List Act) (x : Link GetFile Prog) : Prop where
  conserved : Conserved x
  client : Receives (GetFile.requestBytes user remoteName) (firstNear history) x.near
  peer : match x.far.got with
    | [] => firstFar history = none ∧ x.far.put = [] ∧
        (x.far.state = attend disk fileDirectory ∨ x.far.state.call = none)
    | message :: _ => ∃ n, firstFar history = some n ∧
        message = (GetFile.requestBytes user remoteName).take n

theorem asked_start :
    Asked disk fileDirectory user remoteName [] (exchange disk fileDirectory user remoteName) :=
  ⟨conserved_start _ _, receives_start user remoteName, rfl, rfl, Or.inl rfl⟩

theorem asked_step {history : List Act} {x y : Link GetFile Prog} {act : Act}
    (asked : Asked disk fileDirectory user remoteName history x)
    (step : Step GetFile.program Prog.program x act y) :
    Asked disk fileDirectory user remoteName (history ++ [act]) y := by
  have conserved := conserved_step asked.conserved step
  have client := receives_step asked.client step
  refine ⟨conserved, client, ?_⟩
  have peer := asked.peer
  rw [firstFar_concat]
  cases step with
  | nearReads here takes => simpa using peer
  | nearSends here => simpa [Side.gains] using peer
  | nearRaises n here => simpa [Side.gains] using peer
  | @farReads call n here takes =>
      cases got : x.far.got with
      | nil =>
          rw [got] at peer
          obtain ⟨first, put, -⟩ := peer
          simp only [Side.reads, got, first, List.nil_append]
          exact ⟨n, rfl, request_arrived asked.conserved asked.client takes got put⟩
      | cons message got' =>
          rw [got] at peer
          obtain ⟨n', first, same⟩ := peer
          simp only [Side.reads, got, first, List.cons_append]
          exact ⟨n', rfl, same⟩
  | @farSends message here =>
      cases got : x.far.got with
      | nil =>
          rw [got] at peer
          obtain ⟨-, -, waiting | ended⟩ := peer
          · rw [waiting] at here
            cases here
          · exact absurd (ended.symm.trans here) (by simp)
      | cons message' got' =>
          rw [got] at peer
          simpa [Side.sends, got] using peer
  | @farRaises call n here =>
      cases got : x.far.got with
      | nil =>
          rw [got] at peer
          obtain ⟨first, put, waiting | ended⟩ := peer
          · rw [waiting] at here
            cases here
            simp only [Side.raises, got, put, first, Call.partly, List.append_nil]
            exact ⟨rfl, trivial, Or.inr rfl⟩
          · exact absurd (ended.symm.trans here) (by simp)
      | cons message got' =>
          rw [got] at peer
          simpa [Side.raises, got] using peer

theorem asked_run {history : List Act} {x : Link GetFile Prog}
    (run : Run (Step GetFile.program Prog.program) (exchange disk fileDirectory user remoteName)
      history x) : Asked disk fileDirectory user remoteName history x :=
  run.invariant asked_start fun asked step => asked_step asked step

/-- However the request is cut, the thread extracts the name of the file and looks
up this file and no other if and only if its `recv` reaches to the end of the name. -/
theorem extracts_iff (plainUser : '\x00' ∉ user.toList) (plainName : '\x00' ∉ remoteName.toList)
    {history : List Act} {x : Link GetFile Prog}
    (run : Run (Step GetFile.program Prog.program) (exchange disk fileDirectory user remoteName)
      history x) {n : Nat} (first : firstFar history = some n) :
    (∃ message, x.far.got.head? = some message ∧
        remoteFileName message = some (encode remoteName) ∧
        lookedUp fileDirectory message = some (pathOf fileDirectory (encode remoteName))) ↔
      nameEnd user remoteName ≤ n := by
  have peer := (asked_run run).peer
  have named := remoteFileName_take_iff plainUser plainName n
  cases got : x.far.got with
  | nil =>
      rw [got] at peer
      rw [peer.1] at first
      cases first
  | cons message rest =>
      rw [got] at peer
      obtain ⟨n', first', rfl⟩ := peer
      obtain rfl : n' = n := Option.some.inj (first'.symm.trans first)
      simp only [List.head?_cons, Option.some.injEq, exists_eq_left']
      rw [named]
      refine and_iff_left_of_imp fun whole => ?_
      rw [lookedUp, if_pos (request_whole whole), named.mpr whole, Option.map_some]

end Runs

def askNotes (taken : Nat) : List Act :=
  [.near .sends, .near .sends, .near .sends, .near .sends, .far (.reads taken)]

theorem extracts_iff_notes : ∃ history x,
    Run (Step GetFile.program Prog.program) notesLink history x ∧
      ∃ message, x.far.got.head? = some message ∧
        remoteFileName message = some (encode "notes") ∧
        lookedUp (ascii "files") message = some (pathOf (ascii "files") (encode "notes")) := by
  have some_run : (advanceAll GetFile.program Prog.program notesLink (askNotes 20)).isSome = true := by
    decide +kernel
  obtain ⟨x, run⟩ := Option.isSome_iff_exists.mp some_run
  exact ⟨askNotes 20, x, run_of_advanceAll run,
    (extracts_iff (by decide) (by decide) (run_of_advanceAll run) rfl).mpr (by decide)⟩

/-- A `recv` that ends inside the name: the thread looks up `no`. -/
theorem cut_name_looked_up :
    ¬ ∀ (disk : Disk) (fileDirectory : Bytes) (user remoteName : String) (history : List Act)
      (x : Link GetFile Prog), '\x00' ∉ user.toList → '\x00' ∉ remoteName.toList →
      Run (Step GetFile.program Prog.program) (exchange disk fileDirectory user remoteName)
        history x →
      ∀ message, x.far.got.head? = some message →
        remoteFileName message = some (encode remoteName) ∧
        lookedUp fileDirectory message = some (pathOf fileDirectory (encode remoteName)) := by
  intro always
  have cut : (advanceAll GetFile.program Prog.program notesLink (askNotes 17)).map
      (fun x => x.far.got) = some [ascii "GET_FILE\x003\x00ana\x00no"] := by decide +kernel
  obtain ⟨x, run, got⟩ := Option.map_eq_some_iff.mp cut
  have named := (always _ _ "ana" "notes" _ x (by decide) (by decide) (run_of_advanceAll run) _
    (by rw [got, List.head?_cons])).1
  exact absurd named (by decide +kernel)

end DistrApp.Client
