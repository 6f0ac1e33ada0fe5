import DistrApp.Client.PeerServer
import DistrApp.Client.Requests

/-!
# The methods of `str` in client.py

`decode`, `split(" ")`, `strip` and `int`, on lists of characters, and what they
make of texts that the client or the server has put together.
-/

set_option autoImplicit false

namespace DistrApp.Client

open Text

/-! ## UTF-8 -/

/-- `bytes.decode("utf-8")`, without a value where it raises an exception. -/
def decode (bytes : Bytes) : Option String := String.fromUTF8? (ByteArray.mk bytes.toArray)

theorem byteArray_encode (text : String) :
    ByteArray.mk (encode text).toArray = text.toByteArray := by
  rw [← String.utf8Encode_toList, List.utf8Encode]
  exact ByteArray.ext List.data_toByteArray.symm

theorem encode_append (first second : String) :
    encode (first ++ second) = encode first ++ encode second := by
  simp [encode]

theorem decode_eq_some {bytes : Bytes} {text : String} :
    decode bytes = some text ↔ bytes = encode text := by
  rw [decode, String.fromUTF8?]
  constructor
  · intro decoded
    split at decoded
    · cases decoded
      have same := byteArray_encode (String.fromUTF8 (ByteArray.mk bytes.toArray) ‹_›)
      have arrays : (encode _).toArray = bytes.toArray := congrArg ByteArray.data same
      exact (List.toArray_inj arrays).symm
    · cases decoded
  · rintro rfl
    have valid : (ByteArray.mk (encode text).toArray).IsValidUTF8 := by
      rw [byteArray_encode]
      exact text.isValidUTF8
    rw [dif_pos valid]
    exact congrArg some (String.toByteArray_inj.mp (byteArray_encode text))

theorem decode_encode (text : String) : decode (encode text) = some text := decode_eq_some.mpr rfl

theorem encode_injective : Function.Injective encode := fun first second same =>
  Option.some.inj
    ((decode_encode first).symm.trans ((congrArg decode same).trans (decode_encode second)))

theorem decodes_eq_isSome (bytes : Bytes) : decodes bytes = (decode bytes).isSome := by
  rw [decodes, decode, String.fromUTF8?, Bool.eq_iff_iff, ByteArray.validateUTF8_eq_true_iff]
  split
  · exact iff_of_true ‹_› rfl
  · exact iff_of_false ‹_› (by simp)

theorem decodes_encode (text : String) : decodes (encode text) = true := by
  rw [decodes_eq_isSome, decode_encode]
  rfl

theorem prefix_of_encode_prefix {first second : String} {rest : Bytes}
    (same : encode first ++ rest = encode second) : first.toList <+: second.toList := by
  apply List.isPrefix_of_utf8Encode_append_eq_utf8Encode (List.toByteArray rest)
  rw [String.utf8Encode_toList, String.utf8Encode_toList, ← byteArray_encode, ← byteArray_encode,
    ← same]
  apply ByteArray.ext
  simp [List.data_toByteArray]

theorem encode_ends_nul {text : String} {bytes : Bytes} (ends : encode text = bytes ++ [0]) :
    ∃ before : String, text.toList = before.toList ++ ['\x00'] ∧ encode before = bytes := by
  rcases List.eq_nil_or_concat text.toList with empty | ⟨before, last, whole⟩
  · rw [encode, empty] at ends
    simp at ends
  · rw [List.concat_eq_append] at whole
    have split : encode (String.ofList before) ++ String.utf8EncodeChar last = bytes ++ [0] := by
      rw [← ends]
      simp [encode, whole]
    have member : (0 : UInt8) ∈ String.utf8EncodeChar last := by
      have some_bytes : String.utf8EncodeChar last ≠ [] := String.utf8EncodeChar_ne_nil
      have lasts := congrArg List.getLast? split
      rw [List.getLast?_append_of_ne_nil _ some_bytes, List.getLast?_concat] at lasts
      exact List.mem_of_getLast? lasts
    have nul : last = '\x00' := by
      apply Char.ext
      apply UInt32.toNat_inj.mp
      rw [mem_utf8EncodeChar member (by decide)]
      rfl
    subst nul
    exact ⟨String.ofList before, by simp [whole], (List.append_inj' split rfl).1⟩

/-! ## Texts of ASCII characters -/

theorem ascii_eq_encode {text : String} (plain : ∀ c ∈ text.toList, c.toNat < 128) :
    ascii text = encode text := by
  rw [ascii, encode]
  generalize text.toList = chars at plain
  induction chars with
  | nil => rfl
  | cons c chars ih =>
      have one : String.utf8EncodeChar c = [UInt8.ofNat c.toNat] := by
        have small := plain c List.mem_cons_self
        rw [String.utf8EncodeChar]
        rw [if_pos (by show c.toNat ≤ 127; omega)]
        rfl
      rw [List.map_cons, List.flatMap_cons, one,
        ih fun c member => plain c (List.mem_cons_of_mem _ member)]
      rfl

/-! ## Cutting -/

/-- `text.split(" ")` -/
def split (text : List Char) : List (List Char) := text.splitOn ' '

/-- `text.strip(c)` -/
def strip (c : Char) (text : List Char) : List Char :=
  (text.dropWhile (· = c)).rdropWhile (· = c)

theorem split_cons {part : List Char} (plain : ' ' ∉ part) (rest : List Char) :
    split (part ++ ' ' :: rest) = part :: split rest :=
  List.splitOn_append_cons_self_of_not_mem plain rest

theorem split_single {part : List Char} (plain : ' ' ∉ part) : split part = [part] :=
  List.splitOn_eq_singleton plain

theorem split_ne_nil (text : List Char) : split text ≠ [] := List.splitOn_ne_nil _ _

theorem split_last {last : Char} (other : last ≠ ' ') (n : Nat) :
    ∀ {text part : List Char}, text.count ' ' ≤ n → (split (text ++ [last]))[n]? = some part →
      last ∈ part := by
  induction n with
  | zero =>
      intro text part few here
      have plain : ' ' ∉ text ++ [last] := by
        rw [List.mem_append, List.mem_singleton, not_or]
        exact ⟨List.count_eq_zero.mp (Nat.le_zero.mp few), Ne.symm other⟩
      rw [split_single plain] at here
      cases here
      simp
  | succ n ih =>
      intro text part few here
      by_cases plain : ' ' ∈ text
      · obtain ⟨before, after, rfl, alone⟩ := List.eq_append_cons_of_mem plain
        rw [List.append_assoc, List.cons_append, split_cons alone] at here
        refine ih ?_ here
        simp only [List.count_append, List.count_cons_self] at few
        omega
      · have whole : ' ' ∉ text ++ [last] := by
          rw [List.mem_append, List.mem_singleton, not_or]
          exact ⟨plain, Ne.symm other⟩
        rw [split_single whole] at here
        cases here

theorem strip_of_notMem {c : Char} {text : List Char} (absent : c ∉ text) : strip c text = text := by
  have first : text.dropWhile (· = c) = text := by
    rw [List.dropWhile_eq_self_iff]
    exact fun inside same => absent (by simp [← of_decide_eq_true same])
  rw [strip, first, List.rdropWhile_eq_self_iff]
  exact fun some_text same => absent (of_decide_eq_true same ▸ List.getLast_mem some_text)

theorem strip_append {c : Char} {text : List Char} (absent : c ∉ text) :
    strip c (text ++ [c]) = text := by
  cases text with
  | nil => simp [strip]
  | cons first rest =>
      have other : first ≠ c := fun same => absent (same ▸ List.mem_cons_self)
      rw [strip, List.cons_append, List.dropWhile_cons_of_neg (by simpa using other),
        ← List.cons_append, List.rdropWhile_concat_pos _ _ _ (by simp)]
      rw [List.rdropWhile_eq_self_iff]
      exact fun some_text same => absent (of_decide_eq_true same ▸ List.getLast_mem some_text)

/-! ## Numbers -/

/-- The white space that `int` takes off a text, as `str.isspace` has it. -/
def isBlank (c : Char) : Bool :=
  c.toNat ∈ [9, 10, 11, 12, 13, 28, 29, 30, 31, 32, 133, 160, 5760, 8192, 8193, 8194, 8195, 8196, 8197,
    8198, 8199, 8200, 8201, 8202, 8232, 8233, 8239, 8287, 12288]

def digits (text : List Char) : Option Nat :=
  if (text.all fun c => c.isDigit || c == '_') && (text.splitOn '_').all (· ≠ []) then
    some (Nat.ofDigitChars 10 (text.filter (· ≠ '_')) 0)
  else none

/-- `int(text)`, without a value where it raises an exception; the digits are those
of ASCII. -/
def int (text : List Char) : Option Int :=
  match (text.dropWhile isBlank).rdropWhile isBlank with
  | '-' :: rest => (digits rest).map fun n => -(n : Int)
  | '+' :: rest => (digits rest).map fun n => (n : Int)
  | rest => (digits rest).map fun n => (n : Int)

theorem isDigit_toString {n : Nat} {c : Char} (member : c ∈ (toString n).toList) :
    c.isDigit = true :=
  Nat.isDigit_of_mem_toDigits (b := 10) (by decide) (by decide) (by simpa [Nat.repr] using member)

theorem digits_toString (n : Nat) : digits (toString n).toList = some n := by
  have plain : '_' ∉ (toString n).toList :=
    fun member => absurd (isDigit_toString member) (by decide)
  have groups : ((toString n).toList.splitOn '_').all (· ≠ []) = true := by
    rw [List.splitOn_eq_singleton plain]
    simp
  have all : ((toString n).toList.all fun c => c.isDigit || c == '_') = true := by
    rw [List.all_eq_true]
    exact fun c member => by rw [isDigit_toString member, Bool.true_or]
  have kept : (toString n).toList.filter (· ≠ '_') = (toString n).toList := by
    rw [List.filter_eq_self]
    exact fun c member => decide_eq_true fun same => plain (same ▸ member)
  rw [digits, all, groups, Bool.true_and, if_pos rfl, kept]
  have same : (toString n).toList = Nat.toDigits 10 n := by simp [Nat.repr]
  rw [same, Nat.ofDigitChars_ten_toDigits]

theorem isBlank_of_isDigit {c : Char} (digit : c.isDigit = true) : isBlank c = false := by
  rw [Char.isDigit, Bool.and_eq_true, decide_eq_true_eq, decide_eq_true_eq] at digit
  have low : 48 ≤ c.toNat := UInt32.le_iff_toNat_le.mp digit.1
  have high : c.toNat ≤ 57 := UInt32.le_iff_toNat_le.mp digit.2
  rw [isBlank, decide_eq_false_iff_not]
  intro member
  simp only [List.mem_cons, List.not_mem_nil, or_false] at member
  omega

theorem int_toString (n : Nat) : int (toString n).toList = some (n : Int) := by
  have digit : ∀ c ∈ (toString n).toList, c.isDigit = true := fun c => isDigit_toString
  have value := digits_toString n
  have some_digit : (toString n).toList ≠ [] := by simp
  generalize (toString n).toList = text at digit value some_digit
  have first : text.dropWhile isBlank = text := by
    rw [List.dropWhile_eq_self_iff]
    intro inside blank
    rw [isBlank_of_isDigit (digit _ (List.getElem_mem inside))] at blank
    cases blank
  have last : text.rdropWhile isBlank = text := by
    rw [List.rdropWhile_eq_self_iff]
    intro some_text blank
    rw [isBlank_of_isDigit (digit _ (List.getLast_mem some_text))] at blank
    cases blank
  rw [int, first, last]
  cases text with
  | nil => exact absurd rfl some_digit
  | cons c rest =>
      have here := digit c List.mem_cons_self
      split
      · rename_i same
        cases same
        exact absurd here (by decide)
      · rename_i same
        cases same
        exact absurd here (by decide)
      · rw [value]
        rfl

theorem mem_dropWhile {p : Char → Bool} {c : Char} {text : List Char} (member : c ∈ text)
    (kept : p c = false) : c ∈ text.dropWhile p := by
  rw [← List.takeWhile_append_dropWhile (p := p) (l := text), List.mem_append] at member
  exact member.resolve_left fun taken => by
    rw [List.mem_takeWhile_imp taken] at kept
    cases kept

theorem int_of_nul {text : List Char} (nul : '\x00' ∈ text) : int text = none := by
  have inside : '\x00' ∈ (text.dropWhile isBlank).rdropWhile isBlank := by
    rw [List.rdropWhile, List.mem_reverse]
    apply mem_dropWhile _ (by decide)
    rw [List.mem_reverse]
    exact mem_dropWhile nul (by decide)
  have refused : ∀ rest : List Char, '\x00' ∈ rest → digits rest = none := by
    intro rest member
    have other : (rest.all fun c => c.isDigit || c == '_') = false := by
      rw [List.all_eq_false]
      exact ⟨_, member, by decide⟩
    rw [digits, other, Bool.false_and, if_neg (by decide)]
  rw [int]
  split
  · rename_i rest same
    rw [same, List.mem_cons] at inside
    rw [refused rest (inside.resolve_left (by decide))]
    rfl
  · rename_i rest same
    rw [same, List.mem_cons] at inside
    rw [refused rest (inside.resolve_left (by decide))]
    rfl
  · rw [refused _ inside]
    rfl

end DistrApp.Client
