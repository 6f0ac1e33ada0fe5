import DistrApp.Library.Text

/-!
# External data representation

A routine writes values on a stream and takes them off again.  Routines run one
after the other make a routine for the record of their values, and what one of
them puts on a stream it takes off whatever follows.  `int` and `string` are the
routines for integers of 32 bits, most significant byte first, and for strings
with their length in front, padded to whole words.
-/

set_option autoImplicit false

namespace DistrApp.Xdr

open Text

/-- The two directions of a routine; `none` is the result `FALSE`. -/
structure Routine (α : Type) where
  encode : α → Option Bytes
  decode : Bytes → Option (α × Bytes)

section Routines
variable {α β γ : Type}

/-- A valid value that has been written is read again, and what follows it is left. -/
def Routine.RoundTrips (f : Routine α) (valid : α → Prop) : Prop :=
  ∀ a bytes, valid a → f.encode a = some bytes → ∀ rest, f.decode (bytes ++ rest) = some (a, rest)

def Routine.pair (f : Routine α) (g : Routine β) : Routine (α × β) where
  encode ab := do
    let first ← f.encode ab.1
    let second ← g.encode ab.2
    return first ++ second
  decode stream := do
    let (a, stream) ← f.decode stream
    let (b, stream) ← g.decode stream
    return ((a, b), stream)

def Routine.named (f : Routine α) (fields : β → α) (record : α → β) : Routine β where
  encode b := f.encode (fields b)
  decode stream := (f.decode stream).map fun read => (record read.1, read.2)

theorem Routine.RoundTrips.pair {f : Routine α} {g : Routine β} {valid : α → Prop} {fit : β → Prop}
    (first : f.RoundTrips valid) (second : g.RoundTrips fit) :
    (f.pair g).RoundTrips fun ab => valid ab.1 ∧ fit ab.2 := by
  rintro ⟨a, b⟩ bytes ⟨here, there⟩ written rest
  obtain ⟨front, one, written⟩ := Option.bind_eq_some_iff.mp written
  obtain ⟨back, two, written⟩ := Option.bind_eq_some_iff.mp written
  cases written
  have read := first a front here one (back ++ rest)
  rw [← List.append_assoc] at read
  simp only [Routine.pair]
  rw [read]
  simp only [Option.bind_eq_bind, Option.bind_some]
  rw [second b back there two rest]
  rfl

theorem Routine.RoundTrips.named {f : Routine α} {valid : α → Prop} (trips : f.RoundTrips valid)
    {fields : β → α} {record : α → β} (same : ∀ b, record (fields b) = b) :
    (f.named fields record).RoundTrips fun b => valid (fields b) := by
  intro b bytes here written rest
  simp only [Routine.named]
  rw [trips (fields b) bytes here written rest, Option.map_some, same]

end Routines

/-! ## Words -/

def byteAt (n shift : Nat) : UInt8 := UInt8.ofNat (n / 2 ^ shift % 256)

def wordBytes (n : Nat) : Bytes := [byteAt n 24, byteAt n 16, byteAt n 8, byteAt n 0]

def readWord : Bytes → Option (Nat × Bytes)
  | a :: b :: c :: d :: rest =>
      some (((a.toNat * 256 + b.toNat) * 256 + c.toNat) * 256 + d.toNat, rest)
  | _ => none

theorem toNat_byteAt (n shift : Nat) : (byteAt n shift).toNat = n / 2 ^ shift % 256 := by
  rw [byteAt, UInt8.toNat_ofNat']
  omega

theorem readWord_wordBytes {n : Nat} (small : n < 2 ^ 32) (rest : Bytes) :
    readWord (wordBytes n ++ rest) = some (n, rest) := by
  simp only [wordBytes, List.cons_append, List.nil_append, readWord, toNat_byteAt]
  congr 2
  omega

/-! ## Integers and strings -/

/-- Two's complement in one word. -/
def int : Routine Int where
  encode i := if -2 ^ 31 ≤ i ∧ i < 2 ^ 31 then some (wordBytes (i % 2 ^ 32).toNat) else none
  decode stream := (readWord stream).map fun read =>
    (if read.1 < 2 ^ 31 then (read.1 : Int) else read.1 - 2 ^ 32, read.2)

theorem int_roundTrips : int.RoundTrips fun _ => True := by
  intro i bytes _ written rest
  simp only [int] at written ⊢
  split at written
  · rename_i inside
    cases written
    rw [readWord_wordBytes (by omega), Option.map_some]
    congr 2
    split <;> omega
  · cases written

/-- How many zeros follow a string of `n` bytes. -/
def padding (n : Nat) : Nat := (4 - n % 4) % 4

/-- The string up to its NUL, of `maxsize` bytes at most. -/
def string (maxsize : Nat) : Routine Bytes where
  encode s :=
    if (cString s).length ≤ maxsize ∧ (cString s).length < 2 ^ 32 then
      some (wordBytes (cString s).length ++ cString s ++
        List.replicate (padding (cString s).length) 0)
    else none
  decode stream := do
    let (n, stream) ← readWord stream
    if n ≤ maxsize ∧ n + padding n ≤ stream.length then
      return (stream.take n, stream.drop (n + padding n))
    else none

theorem string_roundTrips (maxsize : Nat) :
    (string maxsize).RoundTrips fun s => (0 : UInt8) ∉ s := by
  intro s bytes clean written rest
  simp only [string, cString_eq_self clean] at written ⊢
  split at written
  · rename_i fits
    cases written
    rw [List.append_assoc, List.append_assoc, readWord_wordBytes fits.2]
    simp only [Option.bind_eq_bind, Option.bind_some]
    rw [if_pos ⟨fits.1, by simp⟩, List.take_left, ← List.append_assoc,
      List.drop_left' (by simp)]
    rfl
  · cases written

end DistrApp.Xdr
