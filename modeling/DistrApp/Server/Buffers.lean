import DistrApp.Server.Fields

/-!
# The buffers of readLine and sendMessage

The two loops again, with the array each of them is given: `readLine` stores
byte by byte and ends with a NUL, `sendMessage` moves its pointer by what every
`write` took.  They do what `readLoop` and `sendMessage` say, and so a line is
framed as the other end framed it and a reply goes out whole or breaks off.
-/

set_option autoImplicit false

namespace DistrApp.Server

open Text

/-! ## The buffer of readLine -/

/-- The loop of `readLine`, with `totRead` bytes stored: `buf` points behind them. -/
def storeLoop (n totRead : Nat) (buffer : Bytes) : List ReadResult → Int × Bytes × List ReadResult
  | [] =>
      if totRead = 0 then (0, buffer, [])
      else (totRead, buffer.set totRead 0, [])
  | .interrupted :: rest => storeLoop n totRead buffer rest
  | .failed :: rest => (-1, buffer, rest)
  | .byte ch :: rest =>
      if ch = newline then (totRead, buffer.set totRead 0, rest)
      else if ch = 0 then (totRead, buffer.set totRead 0, rest)
      else if totRead < n - 1 then storeLoop n (totRead + 1) (buffer.set totRead ch) rest
      else storeLoop n totRead buffer rest

/-- `readLine(fd, buffer, n)`: what it returns, the buffer after it, and the
reads after it.  `none` is NULL. -/
def readLineInto (n : Nat) (buffer : Option Bytes) (input : List ReadResult) :
    Int × Option Bytes × List ReadResult :=
  match buffer with
  | none => (-1, none, input)
  | some array =>
      if n ≤ 0 then (-1, some array, input)
      else
        let (ret, array, rest) := storeLoop n 0 array input
        (ret, some array, rest)

def readEach (n : Nat) : List Bytes → List ReadResult → List (Int × Option Bytes) × List ReadResult
  | [], input => ([], input)
  | buffer :: buffers, input =>
      let (ret, array, rest) := readLineInto n (some buffer) input
      let later := readEach n buffers rest
      ((ret, array) :: later.1, later.2)

def Line.returned : Line → Int
  | .failed _ => -1
  | .endOfFile => 0
  | .text stored => stored.length

def Line.into (buffer : Bytes) : Line → Bytes
  | .failed stored => stored ++ buffer.drop stored.length
  | .endOfFile => buffer
  | .text stored => stored ++ 0 :: buffer.drop (stored.length + 1)

theorem set_stored {stored buffer : Bytes} (room : stored.length < buffer.length) (ch : UInt8) :
    (stored ++ buffer.drop stored.length).set stored.length ch =
      stored ++ ch :: buffer.drop (stored.length + 1) := by
  rw [List.set_append_right _ _ (le_refl _), Nat.sub_self, List.drop_eq_getElem_cons room,
    List.set_cons_zero]

theorem storeLoop_eq {n : Nat} {buffer : Bytes} (roomy : 1 ≤ n) (fits : n ≤ buffer.length) :
    ∀ {input : List ReadResult} {stored : Bytes}, stored.length ≤ n - 1 →
      storeLoop n stored.length (stored ++ buffer.drop stored.length) input =
        ((readLoop n stored input).1.returned, (readLoop n stored input).1.into buffer,
          (readLoop n stored input).2) := by
  intro input
  induction input with
  | nil =>
      intro stored short
      rw [storeLoop, readLoop, set_stored (by omega)]
      by_cases empty : stored = []
      · simp [empty, Line.returned, Line.into]
      · simp [empty, Line.returned, Line.into]
  | cons result input ih =>
      intro stored short
      have stop := set_stored (show stored.length < buffer.length by omega)
      cases result with
      | failed => rfl
      | interrupted => exact ih short
      | byte ch =>
          rw [storeLoop, readLoop, stop 0, stop ch]
          by_cases atNewline : ch = newline
          · simp [atNewline, Line.returned, Line.into]
          by_cases atNul : ch = 0
          · simp [atNul, Line.returned, Line.into]
          simp only [atNewline, atNul, if_false, or_self]
          by_cases room : stored.length < n - 1
          · have later := @ih (stored ++ [ch]) (by simpa using room)
            simp only [List.length_append, List.length_singleton, List.append_assoc,
              List.singleton_append] at later
            rw [if_pos room, if_pos room, later]
          · rw [if_neg room, if_neg room, ih short]

/-- The buffer holds the line that `readLine` reads, and the count is its length. -/
theorem readLineInto_eq {n : Nat} {buffer : Bytes} (roomy : 1 ≤ n) (fits : n ≤ buffer.length)
    (input : List ReadResult) :
    readLineInto n (some buffer) input =
      ((readLine n input).1.returned, some ((readLine n input).1.into buffer),
        (readLine n input).2) := by
  have loop := @storeLoop_eq n buffer roomy fits input [] (Nat.zero_le _)
  simp only [List.length_nil, List.drop_zero, List.nil_append] at loop
  rw [readLineInto, if_neg (by omega), loop]
  rfl

/-! ## One line of the input -/

def BreaksOff (input : List ReadResult) : Prop :=
  .failed ∈ input ∧ beforeEnd (arrived input) = arrived input

def throughEnd (bytes : Bytes) : Bytes := bytes.take ((beforeEnd bytes).length + 1)

theorem throughEnd_cons (ch : UInt8) (bytes : Bytes) :
    throughEnd (ch :: bytes) = if endsLine ch then [ch] else ch :: throughEnd bytes := by
  rw [throughEnd, beforeEnd_cons, throughEnd]
  cases endsLine ch <;> simp

theorem breaksOff_interrupted {input : List ReadResult} :
    BreaksOff (.interrupted :: input) ↔ BreaksOff input := by
  have same : arrived (.interrupted :: input) = arrived input := rfl
  simp only [BreaksOff, same, List.mem_cons, reduceCtorEq, false_or]

theorem breaksOff_byte {ch : UInt8} {input : List ReadResult} :
    BreaksOff (.byte ch :: input) ↔ endsLine ch = false ∧ BreaksOff input := by
  rw [BreaksOff, BreaksOff, arrived_byte, beforeEnd_cons]
  cases endsLine ch <;> simp

theorem readLoop_consumes (n : Nat) :
    ∀ {input : List ReadResult} {stored : Bytes}, ∃ consumed,
      input = consumed ++ (readLoop n stored input).2 ∧
        match (readLoop n stored input).1 with
        | .failed _ => BreaksOff input
        | _ => ¬ BreaksOff input ∧ Delivers consumed (throughEnd (arrived input)) := by
  intro input
  induction input with
  | nil =>
      intro stored
      refine ⟨[], rfl, ?_⟩
      by_cases empty : stored = []
      · simp [readLoop, empty, BreaksOff, arrived, throughEnd, delivers_nil]
      · simp [readLoop, empty, BreaksOff, arrived, throughEnd, delivers_nil]
  | cons result input ih =>
      intro stored
      cases result with
      | failed => exact ⟨[.failed], rfl, by simp [readLoop, BreaksOff, arrived, beforeEnd]⟩
      | interrupted =>
          obtain ⟨consumed, split, taken⟩ := @ih stored
          refine ⟨.interrupted :: consumed, congrArg _ split, ?_⟩
          have same : arrived (.interrupted :: input) = arrived input := rfl
          rw [breaksOff_interrupted, delivers_interrupted, same]
          exact taken
      | byte ch =>
          rw [breaksOff_byte, arrived_byte, throughEnd_cons]
          by_cases ends : endsLine ch = true
          · refine ⟨[.byte ch], ?_⟩
            simp only [readLoop, endsLine_iff.mp ends, ends, if_true]
            exact ⟨rfl, by simp, delivers_byte.mpr ⟨[], rfl, delivers_nil⟩⟩
          · have goesOn : ¬ (ch = newline ∨ ch = 0) := fun stop => ends (endsLine_iff.mpr stop)
            obtain ⟨next, sameNext⟩ : ∃ next,
                readLoop n stored (.byte ch :: input) = readLoop n next input := by
              rw [readLoop, if_neg goesOn]
              split
              · exact ⟨_, rfl⟩
              · exact ⟨_, rfl⟩
            obtain ⟨consumed, split, taken⟩ := @ih next
            refine ⟨.byte ch :: consumed, ?_⟩
            rw [sameNext, if_neg ends, delivers_byte]
            refine ⟨congrArg _ split, ?_⟩
            generalize readLoop n next input = ran at taken ⊢
            obtain ⟨kept | _ | kept, rest⟩ := ran
            · exact ⟨by simpa using ends, taken⟩
            · exact ⟨fun breaks => taken.1 breaks.2, _, rfl, taken.2⟩
            · exact ⟨fun breaks => taken.1 breaks.2, _, rfl, taken.2⟩

theorem arrived_steady {input : List ReadResult} (steady : .failed ∉ input) :
    arrived input = input.filterMap byteOf := arrived_of_delivers ⟨steady, rfl⟩

theorem readLine_whole {n : Nat} (roomy : 2 ≤ n) {input : List ReadResult}
    (whole : ¬ BreaksOff input) :
    (readLine n input).1 = (if arrived input = [] then .endOfFile
        else .text ((beforeEnd (arrived input)).take (n - 1))) ∧
      arrived (readLine n input).2 = afterEnd (arrived input) := by
  by_cases nothing : arrived input = []
  · have steady : .failed ∉ input := fun failed => whole ⟨failed, by rw [nothing]; rfl⟩
    have delivers : Delivers input [] := ⟨steady, nothing ▸ (arrived_steady steady).symm⟩
    obtain ⟨rest, later, ran⟩ := readLine_delivers roomy delivers
    rw [ran, nothing]
    exact ⟨rfl, arrived_of_delivers later⟩
  · have line := @readLoop_arrived n roomy input [] (Nat.zero_le _)
    obtain ⟨_, _, taken⟩ := @readLoop_consumes n input []
    rw [readLine, if_neg nothing]
    generalize readLoop n [] input = ran at line taken ⊢
    obtain ⟨kept | _ | kept, rest⟩ := ran
    · exact absurd taken whole
    · exact absurd line.2.1 nothing
    · exact ⟨congrArg Line.text line.1, line.2⟩

/-- The bytes of a line, cut to what fits, and a NUL, over what the buffer held. -/
def lineOver (n : Nat) (line buffer : Bytes) : Bytes :=
  line.take (n - 1) ++ 0 :: buffer.drop (min line.length (n - 1) + 1)

theorem readLineInto_whole {n : Nat} (roomy : 2 ≤ n) {buffer : Bytes} (fits : n ≤ buffer.length)
    {input : List ReadResult} (whole : ¬ BreaksOff input) :
    (arrived input = [] →
      readLineInto n (some buffer) input = (0, some buffer, (readLine n input).2)) ∧
    (arrived input ≠ [] →
      readLineInto n (some buffer) input =
        (((min (beforeEnd (arrived input)).length (n - 1) : Nat) : Int),
          some (lineOver n (beforeEnd (arrived input)) buffer), (readLine n input).2)) := by
  rw [readLineInto_eq (by omega) fits, (readLine_whole roomy whole).1]
  refine ⟨fun nothing => ?_, fun something => ?_⟩
  · rw [if_pos nothing]
    rfl
  · rw [if_neg something]
    simp only [Line.returned, Line.into, lineOver, List.length_take, Nat.min_comm]

theorem readLineInto_failed {n : Nat} (roomy : 2 ≤ n) {buffer : Bytes} (fits : n ≤ buffer.length)
    (input : List ReadResult) :
    (readLineInto n (some buffer) input).1 = -1 ↔ BreaksOff input := by
  obtain ⟨_, _, taken⟩ := @readLoop_consumes n input []
  rw [readLineInto_eq (by omega) fits, readLine]
  generalize readLoop n [] input = ran at taken ⊢
  obtain ⟨kept | _ | kept, rest⟩ := ran
  · exact ⟨fun _ => taken, fun _ => rfl⟩
  · exact ⟨fun minus => absurd minus (by simp [Line.returned]), fun breaks => absurd breaks taken.1⟩
  · refine ⟨fun minus => ?_, fun breaks => absurd breaks taken.1⟩
    simp only [Line.returned] at minus
    omega

theorem readLineInto_field {n : Nat} (roomy : 2 ≤ n) {buffer : Bytes} (fits : n ≤ buffer.length)
    {field : Bytes} (short : field.length < n) (plain : (0 : UInt8) ∉ field ∧ newline ∉ field)
    {input : List ReadResult} {later : Bytes} (next : arrived input = field ++ 0 :: later) :
    readLineInto n (some buffer) input = ((field.length : Int),
        some (field ++ 0 :: buffer.drop (field.length + 1)), (readLine n input).2) ∧
      arrived (readLine n input).2 = later := by
  obtain ⟨line, after⟩ := beforeEnd_field plain later
  have whole : ¬ BreaksOff input := by
    rintro ⟨_, noEnd⟩
    rw [next, line] at noEnd
    simp at noEnd
  have call := (readLineInto_whole roomy fits whole).2 (by rw [next]; simp)
  rw [next, line, lineOver, List.take_of_length_le (by omega), Nat.min_eq_left (by omega)] at call
  exact ⟨call, by rw [(readLine_whole roomy whole).2, next, after]⟩

/-- What the calls make of the fields: how long each is, and the buffer over
which it was stored. -/
def fieldsOver (fields buffers : List Bytes) : List (Int × Option Bytes) :=
  List.zipWith (fun field buffer =>
    ((field.length : Int), some (field ++ 0 :: buffer.drop (field.length + 1)))) fields buffers

theorem readEach_fields {n : Nat} (roomy : 2 ≤ n) :
    ∀ {fields buffers : List Bytes} {input : List ReadResult} {later : Bytes},
      fields.length = buffers.length →
      (∀ field ∈ fields, field.length < n ∧ (0 : UInt8) ∉ field ∧ newline ∉ field) →
      (∀ buffer ∈ buffers, n ≤ buffer.length) →
      arrived input = (fields.flatMap fun field => field ++ [0]) ++ later →
      (readEach n buffers input).1 = fieldsOver fields buffers ∧
        arrived (readEach n buffers input).2 = later := by
  intro fields
  induction fields with
  | nil =>
      intro buffers input later same _ _ next
      obtain rfl := List.length_eq_zero_iff.mp same.symm
      exact ⟨rfl, next⟩
  | cons field fields ih =>
      intro buffers input later same fieldsFit buffersFit next
      cases buffers with
      | nil => simp at same
      | cons buffer buffers =>
          rw [List.forall_mem_cons] at fieldsFit buffersFit
          have front : arrived input =
              field ++ 0 :: ((fields.flatMap fun field => field ++ [0]) ++ later) := by
            rw [next, List.flatMap_cons]
            simp
          obtain ⟨call, after⟩ :=
            readLineInto_field roomy buffersFit.1 fieldsFit.1.1 fieldsFit.1.2 front
          obtain ⟨lines, rest⟩ := ih (by simpa using same) fieldsFit.2 buffersFit.2 after
          rw [readEach, call, fieldsOver, List.zipWith_cons_cons, ← fieldsOver, ← lines]
          exact ⟨rfl, rest⟩

/-- Every call takes one line off its input and stores what fits of it; it
returns -1 only where a read fails in the line.  So calls in a row give back
the fields that were sent. -/
theorem readLine_gives_back_fields {n : Nat} (roomy : 2 ≤ n) :
    (∀ (buffer : Bytes) (input : List ReadResult), n ≤ buffer.length → ¬ BreaksOff input →
      ∃ consumed rest, input = consumed ++ rest ∧
        Delivers consumed (throughEnd (arrived input)) ∧
        (arrived input = [] → readLineInto n (some buffer) input = (0, some buffer, rest)) ∧
        (arrived input ≠ [] → readLineInto n (some buffer) input =
          (((min (beforeEnd (arrived input)).length (n - 1) : Nat) : Int),
            some (lineOver n (beforeEnd (arrived input)) buffer), rest))) ∧
    (∀ (buffer : Bytes) (input : List ReadResult), n ≤ buffer.length →
      ((readLineInto n (some buffer) input).1 = -1 ↔ BreaksOff input)) ∧
    ∀ (fields buffers : List Bytes) (input : List ReadResult) (later : Bytes),
      fields.length = buffers.length →
      (∀ field ∈ fields, field.length < n ∧ (0 : UInt8) ∉ field ∧ newline ∉ field) →
      (∀ buffer ∈ buffers, n ≤ buffer.length) →
      arrived input = (fields.flatMap fun field => field ++ [0]) ++ later →
      (readEach n buffers input).1 = fieldsOver fields buffers ∧
        arrived (readEach n buffers input).2 = later := by
  refine ⟨?_, fun _ input fits => readLineInto_failed roomy fits input,
    fun _ _ _ _ same fieldsFit buffersFit next =>
      readEach_fields roomy same fieldsFit buffersFit next⟩
  intro buffer input fits whole
  obtain ⟨atEnd, stores⟩ := readLineInto_whole roomy fits whole
  obtain ⟨consumed, split, taken⟩ := @readLoop_consumes n input []
  refine ⟨consumed, (readLine n input).2, split, ?_, atEnd, stores⟩
  generalize (readLoop n [] input).1 = line at taken
  cases line with
  | failed stored => exact absurd taken whole
  | endOfFile => exact taken.2
  | text stored => exact taken.2

theorem readLine_gives_back_fields_ab :
    readEach 4 [[7, 7, 7, 7], [7, 7, 7, 7]]
        [.byte 97, .interrupted, .byte 98, .byte 0, .byte 0, .failed] =
      ([(2, some [97, 98, 0, 7]), (0, some [0, 7, 7, 7])], [.failed]) := by
  have back := (@readLine_gives_back_fields 4 (by decide)).2.2 [[97, 98], []]
    [[7, 7, 7, 7], [7, 7, 7, 7]] [.byte 97, .interrupted, .byte 98, .byte 0, .byte 0, .failed] []
    rfl (by decide) (by decide) rfl
  exact Prod.ext back.1 (by decide +kernel)

/-! ## The buffer of sendMessage -/

/-- What a call did: its return value, the bytes it put on the wire, and what
each `write` returned. -/
structure Sending where
  returned : Int
  wire : Bytes
  results : List Int
  deriving DecidableEq

def Sending.prepend (wire : Bytes) (r : Int) (later : Sending) : Sending :=
  ⟨later.returned, wire ++ later.wire, r :: later.results⟩

/-- The loop of `sendMessage`: `buffer` has moved by `offset`, `l` bytes are
left, and `write call l` is what the next `write` returns.  One unit of fuel is
one `write`. -/
def sendLoop (write : Nat → Int → Int) (buffer : Bytes) :
    Nat → Nat → Nat → Int → Option Sending
  | 0, _, _, _ => none
  | fuel + 1, call, offset, l =>
      let r := write call l
      if r < 0 then some ⟨-1, [], [r]⟩
      else
        let wire := (buffer.drop offset).take r.toNat
        if l - r > 0 ∧ r ≥ 0 then
          (sendLoop write buffer fuel (call + 1) (offset + r.toNat) (l - r)).map (.prepend wire r)
        else some ⟨0, wire, [r]⟩

/-- `sendMessage(socket, buffer, len)`. -/
def sendMessageFrom (write : Nat → Int → Int) (buffer : Bytes) (len fuel : Nat) : Option Sending :=
  sendLoop write buffer fuel 0 0 len

def Writes (write : Nat → Int → Int) : Prop :=
  ∀ (call : Nat) (l : Int), 1 ≤ l → write call l < 0 ∨ 1 ≤ write call l ∧ write call l ≤ l

/-- The call returned 0 with every byte on the wire, or -1 with some left. -/
inductive Sends (message : Bytes) (sent : Sending) : Prop
  | all (returned : sent.returned = 0) (wire : sent.wire = message)
      (steady : ∀ r ∈ sent.results, ¬ r < 0)
  | broken (returned : sent.returned = -1) (wire : sent.wire <+: message)
      (less : sent.wire.length < message.length) (failed : ∃ r ∈ sent.results, r < 0)

section Sending
variable {write : Nat → Int → Int} {buffer : Bytes}

theorem sendLoop_step (writes : Writes write) {left : Nat} (nonempty : 1 ≤ left)
    (call offset : Nat) :
    (write call left < 0 ∧ ∀ fuel, sendLoop write buffer (fuel + 1) call offset left =
      some ⟨-1, [], [write call left]⟩) ∨
    (write call left = left ∧ ∀ fuel, sendLoop write buffer (fuel + 1) call offset left =
      some ⟨0, (buffer.drop offset).take left, [(left : Int)]⟩) ∨
    ∃ r : Nat, 1 ≤ r ∧ r < left ∧ write call left = r ∧
      ∀ fuel, sendLoop write buffer (fuel + 1) call offset left =
        (sendLoop write buffer fuel (call + 1) (offset + r) (left - r : Nat)).map
          (.prepend ((buffer.drop offset).take r) r) := by
  rcases writes call left (by omega) with failed | ⟨progress, atMost⟩
  · exact Or.inl ⟨failed, fun fuel => by rw [sendLoop, if_pos failed]⟩
  · obtain ⟨r, isCount⟩ := Int.eq_ofNat_of_zero_le (show 0 ≤ write call left by omega)
    have steady : ¬ write call left < 0 := by omega
    refine Or.inr ?_
    by_cases more : (left : Int) - write call left > 0
    · refine Or.inr ⟨r, by omega, by omega, isCount, fun fuel => ?_⟩
      have rest : (left : Int) - r = (left - r : Nat) := by omega
      rw [sendLoop, if_neg steady, if_pos ⟨more, by omega⟩, isCount, Int.toNat_natCast, rest]
    · have whole : r = left := by omega
      refine Or.inl ⟨by omega, fun fuel => ?_⟩
      rw [sendLoop, if_neg steady, if_neg (fun goesOn => more goesOn.1), isCount,
        Int.toNat_natCast, whole]

/-- The pointer and the count move together: what is sent later continues what
is sent now. -/
theorem take_split {offset r left : Nat} (part : r < left) :
    (buffer.drop offset).take left =
      (buffer.drop offset).take r ++ (buffer.drop (offset + r)).take (left - r) := by
  rw [← List.drop_drop, ← List.take_add, Nat.add_sub_cancel' (Nat.le_of_lt part)]

theorem Sends.prepend {wire message : Bytes} {r : Nat} {later : Sending}
    (sends : Sends message later) : Sends (wire ++ message) (later.prepend wire r) := by
  cases sends with
  | all returned rest steady =>
      refine Sends.all returned (congrArg _ rest) ?_
      rw [Sending.prepend, List.forall_mem_cons]
      exact ⟨by omega, steady⟩
  | broken returned rest less failed =>
      obtain ⟨code, member, negative⟩ := failed
      refine Sends.broken returned ((List.prefix_append_right_inj _).mpr rest) ?_
        ⟨code, List.mem_cons_of_mem _ member, negative⟩
      simp only [Sending.prepend, List.length_append]
      omega

/-- As many writes as there are bytes are enough. -/
theorem sendLoop_sends (writes : Writes write) (left : Nat) :
    ∀ {call offset : Nat}, 1 ≤ left → offset + left ≤ buffer.length →
      ∃ sent, (∀ fuel, left ≤ fuel → sendLoop write buffer fuel call offset left = some sent) ∧
        sent.results.length ≤ left ∧ Sends ((buffer.drop offset).take left) sent := by
  induction left using Nat.strong_induction_on with
  | _ left ih =>
      intro call offset nonempty inside
      have oneWrite : ∀ fuel, left ≤ fuel → ∃ less, fuel = less + 1 := fun fuel enough =>
        ⟨fuel - 1, by omega⟩
      rcases @sendLoop_step _ buffer writes _ nonempty call offset with
        ⟨failed, ran⟩ | ⟨_, ran⟩ | ⟨r, progress, part, _, ran⟩
      · refine ⟨⟨-1, [], [write call left]⟩, fun fuel enough => ?_, nonempty, ?_⟩
        · obtain ⟨less, rfl⟩ := oneWrite fuel enough
          exact ran less
        · refine Sends.broken rfl List.nil_prefix ?_ ⟨_, List.mem_cons_self, failed⟩
          simp only [List.length_nil, List.length_take, List.length_drop]
          omega
      · refine ⟨⟨0, (buffer.drop offset).take left, [(left : Int)]⟩, fun fuel enough => ?_,
          nonempty, ?_⟩
        · obtain ⟨less, rfl⟩ := oneWrite fuel enough
          exact ran less
        · refine Sends.all rfl rfl ?_
          rw [List.forall_mem_singleton]
          omega
      · obtain ⟨later, rest, count, sends⟩ := @ih (left - r) (by omega) (call + 1) (offset + r)
          (by omega) (by omega)
        refine ⟨later.prepend ((buffer.drop offset).take r) r, fun fuel enough => ?_, ?_, ?_⟩
        · obtain ⟨less, rfl⟩ := oneWrite fuel enough
          rw [ran, rest less (by omega)]
          rfl
        · simp only [Sending.prepend, List.length_cons]
          omega
        · rw [take_split part]
          exact sends.prepend

/-- What the model of the handler is told of a `write`. -/
def resultOf (r : Int) : WriteResult := if r < 0 then .failed else .wrote r.toNat

/-- The handler's `sendMessage` on the results of these writes, and any after them. -/
theorem sendMessage_of_sendLoop (writes : Writes write) (after : List WriteResult) (fuel : Nat) :
    ∀ {call offset left : Nat} {sent : Sending}, 1 ≤ left → offset + left ≤ buffer.length →
      sendLoop write buffer fuel call offset left = some sent →
      sendMessage (sent.results.map resultOf ++ after) ((buffer.drop offset).take left) =
        (decide (sent.returned = 0), sent.wire, after) := by
  induction fuel with
  | zero =>
      intro call offset left sent _ _ ran
      exact absurd ran (by simp [sendLoop])
  | succ fuel ih =>
      intro call offset left sent nonempty inside ran
      have length : ((buffer.drop offset).take left).length = left := by
        rw [List.length_take, List.length_drop]
        omega
      rcases @sendLoop_step _ buffer writes _ nonempty call offset with
        ⟨failed, step⟩ | ⟨_, step⟩ | ⟨r, progress, part, _, step⟩
      · obtain rfl := Option.some.inj ((step fuel).symm.trans ran)
        simp [resultOf, failed, sendMessage]
      · obtain rfl := Option.some.inj ((step fuel).symm.trans ran)
        have steady : ¬ (left : Int) < 0 := by omega
        have whole : left = taken left left := by
          rw [taken]
          omega
        simp [resultOf, steady, sendMessage, length, ← whole]
      · rw [step, Option.map_eq_some_iff] at ran
        obtain ⟨later, rest, rfl⟩ := ran
        have steady : ¬ (r : Int) < 0 := by omega
        have some_left : taken r left = r := by
          rw [taken]
          omega
        have notAll : ¬ left = r := by omega
        have behind : ((buffer.drop offset).take left).drop r =
            (buffer.drop (offset + r)).take (left - r) := by
          rw [List.drop_take, List.drop_drop]
        have front : ((buffer.drop offset).take left).take r = (buffer.drop offset).take r := by
          rw [List.take_take, Nat.min_eq_left (Nat.le_of_lt part)]
        have followed := ih (show 1 ≤ left - r by omega)
          (show offset + r + (left - r) ≤ buffer.length by omega) rest
        simp only [Sending.prepend, List.map_cons, List.cons_append, resultOf, if_neg steady,
          Int.toNat_natCast, sendMessage, length, some_left, notAll, if_false, behind, front,
          followed]
        rfl

theorem sendMessage_all_or_breaks (writes : Writes write) {len : Nat} (nonempty : 1 ≤ len)
    (inside : len ≤ buffer.length) :
    ∃ sent, (∀ fuel, len ≤ fuel → sendMessageFrom write buffer len fuel = some sent) ∧
      sent.results.length ≤ len ∧
      (sent.returned = 0 ↔ sent.wire = buffer.take len) ∧
      (sent.returned = -1 ↔ ∃ r ∈ sent.results, r < 0) ∧
      (sent.returned = 0 ∨ sent.returned = -1) ∧
      (sent.returned = -1 → sent.wire <+: buffer.take len ∧ sent.wire ≠ buffer.take len) := by
  obtain ⟨sent, ran, count, sends⟩ := @sendLoop_sends _ buffer writes len 0 0 nonempty (by omega)
  rw [List.drop_zero] at sends
  refine ⟨sent, ran, count, ?_⟩
  cases sends with
  | all returned wire steady =>
      rw [returned, wire]
      refine ⟨by simp, ?_, Or.inl rfl, fun minus => absurd minus (by decide)⟩
      simpa using steady
  | broken returned wire less failed =>
      have differs : sent.wire ≠ buffer.take len := fun same => by
        rw [same] at less
        omega
      rw [returned]
      exact ⟨by simpa using differs, by simpa using failed, Or.inr rfl, fun _ => ⟨wire, differs⟩⟩

end Sending

theorem sendMessage_all_or_breaks_abc :
    ∃ sent, sendMessageFrom (fun call l => if call = 0 then min 2 l else l) [97, 98, 99] 3 3 =
      some sent ∧ sent.wire = [97, 98, 99] := by
  have writes : Writes fun call l => if call = 0 then min 2 l else l := by
    intro call l nonempty
    dsimp only
    split <;> omega
  obtain ⟨sent, ran, _, sends, _⟩ := @sendMessage_all_or_breaks _ [97, 98, 99] writes 3
    (by decide) (by decide)
  refine ⟨sent, ran 3 (by decide), sends.mp ?_⟩
  obtain rfl := Option.some.inj ((ran 3 (by decide)).symm.trans
    (show _ = some ⟨0, [97, 98, 99], [2, 1]⟩ by decide))
  rfl

end DistrApp.Server
