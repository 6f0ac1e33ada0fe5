import DistrApp.Library.Text

/-!
# readLine and sendMessage

What the two functions of comm.c do with the results of `read` and `write`.
The results are lists: past its end, `read` reports end of file for ever, and
`write` takes whatever it is given.
-/

set_option autoImplicit false

namespace DistrApp.Server

open Text

inductive ReadResult
  | byte (ch : UInt8)
  | interrupted
  | failed
  deriving DecidableEq

/-- What `readLine` returns and stores: -1, with bytes stored and no NUL after
them; 0 at the end of file, the buffer untouched; or a string. -/
inductive Line
  | failed (stored : Bytes)
  | endOfFile
  | text (stored : Bytes)
  deriving DecidableEq

/-- The loop, with the bytes stored so far; their number is `totRead`. -/
def readLoop (n : Nat) (stored : Bytes) : List ReadResult → Line × List ReadResult
  | [] => (if stored = [] then .endOfFile else .text stored, [])
  | .interrupted :: rest => readLoop n stored rest
  | .failed :: rest => (.failed stored, rest)
  | .byte ch :: rest =>
      if ch = newline ∨ ch = 0 then (.text stored, rest)
      else if stored.length < n - 1 then readLoop n (stored ++ [ch]) rest
      -- bytes past the buffer are read and dropped
      else readLoop n stored rest

def readLine (n : Nat) (input : List ReadResult) : Line × List ReadResult := readLoop n [] input

inductive WriteResult
  | failed
  | wrote (count : Nat)
  deriving DecidableEq

/-- How many of `left` bytes a `write` takes: at least one, if there is one. -/
def taken (count left : Nat) : Nat := min (max 1 count) left

/-- Whether `sendMessage` returns 0, the bytes it put on the wire, and the
results of the writes after it. -/
def sendMessage : List WriteResult → Bytes → Bool × Bytes × List WriteResult
  | [], message => (true, message, [])
  | .failed :: rest, _ => (false, [], rest)
  | .wrote count :: rest, message =>
      let r := taken count message.length
      if message.length = r then (true, message, rest)
      else
        let later := sendMessage rest (message.drop r)
        (later.1, message.take r ++ later.2.1, later.2.2)

/-! ## Reading delivered bytes -/

def byteOf : ReadResult → Option UInt8
  | .byte ch => some ch
  | _ => none

/-- The connection delivers these bytes and then ends; reads may be interrupted. -/
def Delivers (input : List ReadResult) (bytes : Bytes) : Prop :=
  .failed ∉ input ∧ input.filterMap byteOf = bytes

theorem delivers_nil : Delivers [] [] := ⟨by simp, rfl⟩

theorem delivers_byte {ch : UInt8} {input : List ReadResult} {bytes : Bytes} :
    Delivers (.byte ch :: input) bytes ↔ ∃ rest, bytes = ch :: rest ∧ Delivers input rest := by
  constructor
  · rintro ⟨steady, rfl⟩
    exact ⟨_, rfl, fun failed => steady (List.mem_cons_of_mem _ failed), rfl⟩
  · rintro ⟨rest, rfl, steady, rfl⟩
    exact ⟨by simpa using steady, rfl⟩

theorem delivers_interrupted {input : List ReadResult} {bytes : Bytes} :
    Delivers (.interrupted :: input) bytes ↔ Delivers input bytes := by
  constructor
  · rintro ⟨steady, rfl⟩
    exact ⟨fun failed => steady (List.mem_cons_of_mem _ failed), rfl⟩
  · rintro ⟨steady, rfl⟩
    exact ⟨by simpa using steady, rfl⟩

def endsLine (ch : UInt8) : Bool := ch = newline || ch = 0

def beforeEnd (bytes : Bytes) : Bytes := bytes.takeWhile fun ch => !endsLine ch

def afterEnd (bytes : Bytes) : Bytes := (bytes.dropWhile fun ch => !endsLine ch).drop 1

theorem endsLine_iff {ch : UInt8} : endsLine ch = true ↔ ch = newline ∨ ch = 0 := by
  simp [endsLine]

theorem beforeEnd_cons (ch : UInt8) (bytes : Bytes) :
    beforeEnd (ch :: bytes) = if endsLine ch then [] else ch :: beforeEnd bytes := by
  rw [beforeEnd, List.takeWhile_cons, beforeEnd]
  cases endsLine ch <;> rfl

theorem afterEnd_cons (ch : UInt8) (bytes : Bytes) :
    afterEnd (ch :: bytes) = if endsLine ch then bytes else afterEnd bytes := by
  rw [afterEnd, List.dropWhile_cons, afterEnd]
  cases endsLine ch <;> rfl

theorem readLoop_delivers {n : Nat} (roomy : 2 ≤ n) :
    ∀ {input : List ReadResult} {bytes stored : Bytes}, Delivers input bytes →
      stored.length ≤ n - 1 → ∃ rest, Delivers rest (afterEnd bytes) ∧
        readLoop n stored input =
          (if bytes = [] ∧ stored = [] then .endOfFile
            else .text ((stored ++ beforeEnd bytes).take (n - 1)), rest) := by
  intro input
  induction input with
  | nil =>
      intro bytes stored delivers short
      obtain rfl := delivers.2
      refine ⟨[], delivers_nil, ?_⟩
      by_cases empty : stored = []
      · simp [readLoop, empty]
      · simp [readLoop, empty, beforeEnd, List.take_of_length_le short]
  | cons result input ih =>
      intro bytes stored delivers short
      cases result with
      | failed => exact absurd (List.mem_cons_self) delivers.1
      | interrupted => exact ih (delivers_interrupted.mp delivers) short
      | byte ch =>
          obtain ⟨tail, rfl, later⟩ := delivers_byte.mp delivers
          rw [afterEnd_cons, beforeEnd_cons]
          by_cases ends : endsLine ch = true
          · refine ⟨input, by rw [if_pos ends]; exact later, ?_⟩
            simp [readLoop, endsLine_iff.mp ends, ends, List.take_of_length_le short]
          · rw [if_neg ends, if_neg ends]
            have goesOn : ¬ (ch = newline ∨ ch = 0) := fun stop => ends (endsLine_iff.mpr stop)
            by_cases room : stored.length < n - 1
            · obtain ⟨rest, after, ran⟩ := ih later
                (show (stored ++ [ch]).length ≤ n - 1 by simpa using room)
              refine ⟨rest, after, ?_⟩
              simp only [readLoop, goesOn, room, if_false, if_true, ran]
              simp
            · obtain ⟨rest, after, ran⟩ := ih later short
              have full : stored.length = n - 1 := by omega
              have nonempty : stored ≠ [] := by
                rintro rfl
                simp only [List.length_nil] at full
                omega
              refine ⟨rest, after, ?_⟩
              simp only [readLoop, goesOn, room, if_false, ran]
              simp [nonempty, ← full]

theorem readLine_delivers {n : Nat} (roomy : 2 ≤ n) {input : List ReadResult} {bytes : Bytes}
    (delivers : Delivers input bytes) : ∃ rest, Delivers rest (afterEnd bytes) ∧
      readLine n input = (if bytes = [] then .endOfFile
        else .text ((beforeEnd bytes).take (n - 1)), rest) := by
  obtain ⟨rest, later, ran⟩ := @readLoop_delivers n roomy input bytes [] delivers (by simp)
  exact ⟨rest, later, by simpa [readLine] using ran⟩

theorem endsLine_plain {field : Bytes} (plain : (0 : UInt8) ∉ field ∧ newline ∉ field) :
    ∀ ch ∈ field, endsLine ch = false := by
  intro ch member
  rw [Bool.eq_false_iff, ne_eq, endsLine_iff]
  rintro (rfl | rfl)
  · exact plain.2 member
  · exact plain.1 member

theorem beforeEnd_cut {field : Bytes} (plain : (0 : UInt8) ∉ field ∧ newline ∉ field) :
    beforeEnd field = field ∧ afterEnd field = [] := by
  have goesOn : ∀ ch ∈ field, (!endsLine ch) = true := fun ch member => by
    rw [endsLine_plain plain ch member]
    rfl
  rw [beforeEnd, afterEnd, List.takeWhile_eq_self_iff.mpr goesOn, List.dropWhile_eq_nil_iff.mpr goesOn]
  exact ⟨rfl, rfl⟩

theorem beforeEnd_field {field : Bytes} (plain : (0 : UInt8) ∉ field ∧ newline ∉ field)
    (rest : Bytes) :
    beforeEnd (field ++ 0 :: rest) = field ∧ afterEnd (field ++ 0 :: rest) = rest := by
  induction field with
  | nil => exact ⟨rfl, rfl⟩
  | cons ch field ih =>
      have goesOn := endsLine_plain plain ch List.mem_cons_self
      simp only [List.mem_cons, not_or] at plain
      obtain ⟨same, after⟩ := ih ⟨plain.1.2, plain.2.2⟩
      rw [List.cons_append, beforeEnd_cons, afterEnd_cons, goesOn]
      simp [same, after]

end DistrApp.Server
