import DistrApp.Client.Strings
import DistrApp.Server.Distinct
import DistrApp.Server.Announced

/-!
# The addresses that LIST_USERS brings

`listusers` takes the lines of the table apart and keeps in `_list_users` where
each user listens.  The server cuts the table into pieces of 255 bytes, and the
client takes each piece for a line.
-/

set_option autoImplicit false

namespace DistrApp.Client

open Text FileTree Effects Server

/-! ## The client -/

/-- `client._list_users` -/
abbrev ListUsers := String → Option (String × Int)

/-- One turn of the inner loop, without a value where it raises an exception. -/
def note (listUsers : ListUsers) (userInfo : List (List Char)) (i : Nat) :
    Option (ListUsers × List (List Char)) := do
  let userInfo := userInfo.modify i fun part => strip '\n' (strip '\x00' part)
  let host ← userInfo[1]?
  let port ← int (← userInfo[2]?)
  let user ← userInfo[0]?
  return (Function.update listUsers (String.ofList user) (some (String.ofList host, port)), userInfo)

/-- The inner loop, and whether it came to its end. -/
def noteAll : List Nat → ListUsers → List (List Char) → ListUsers × Bool
  | [], listUsers, _ => (listUsers, true)
  | i :: rest, listUsers, userInfo =>
      match note listUsers userInfo i with
      | none => (listUsers, false)
      | some (later, changed) => noteAll rest later changed

def noteLine (listUsers : ListUsers) (usuarioConectado : Bytes) : ListUsers × Bool :=
  match decode usuarioConectado with
  | none => (listUsers, false)
  | some text =>
      let userInfo := split text.toList
      noteAll (List.range userInfo.length) listUsers userInfo

/-- The loop over so many lines; `recv` returns nothing once the messages are over. -/
def noteLines : Nat → List Bytes → ListUsers → ListUsers × Bool
  | 0, _, listUsers => (listUsers, true)
  | n + 1, received, listUsers =>
      match noteLine listUsers (received.headD []) with
      | (later, true) => noteLines n received.tail later
      | (later, false) => (later, false)

/-- `_list_users` after `listusers`, whose `recv` calls have returned these messages. -/
def listUsersAfter (listUsers : ListUsers) (received : List Bytes) : ListUsers :=
  match decode (received.headD []), decode (received.tail.headD []) with
  | some respuesta, some numeroDeConectados =>
      if respuesta.toList.head? = some '0' then
        -- clear() comes before int()
        match int (strip '\x00' numeroDeConectados.toList) with
        | none => fun _ => none
        | some n => (noteLines n.toNat received.tail.tail fun _ => none).1
      else listUsers
  | _, _ => listUsers

/-! ## Users and their entries -/

/-- What `getsockname` returns for an IPv4 socket. -/
structure Sockname where
  host : String
  port : Nat
  numeric : ∀ c ∈ host.toList, c.isDigit = true ∨ c = '.'

/-- A user with a name that REGISTER takes from the client, and where it listens. -/
structure Member where
  user : String
  sockname : Sockname
  accepted : ' ' ∉ user.toList ∧ PlainValue user

namespace Member

def request (m : Member) : Request :=
  .connect (encode m.user) (encode (toString m.sockname.port)) (encode m.sockname.host)

def entry (m : Member) : Bytes :=
  tableEntry (encode m.user) (encode m.sockname.host) (encode (toString m.sockname.port))

def noted (m : Member) (listUsers : ListUsers) : ListUsers :=
  Function.update listUsers m.user (some (m.sockname.host, (m.sockname.port : Int)))

def core (m : Member) : List Char :=
  m.user.toList ++ ' ' :: (m.sockname.host.toList ++ ' ' :: (toString m.sockname.port).toList)

end Member

/-- The map from each name to its address. -/
def usersOf (members : List Member) : ListUsers := fun name =>
  (members.find? fun m => m.user = name).map fun m => (m.sockname.host, (m.sockname.port : Int))

/-- Each line fits into one piece; the newline of the last may be left over. -/
def LinesFit (members : List Member) : Prop :=
  (∀ m ∈ members.dropLast, m.entry.length ≤ 255) ∧ ∀ m ∈ members.getLast?, m.entry.length ≤ 256

section Members
variable {m : Member} {members : List Member}

theorem Sockname.host_notMem (sockname : Sockname) {c : Char} (digit : c.isDigit = false)
    (other : c ≠ '.') : c ∉ sockname.host.toList := by
  intro member
  rcases sockname.numeric c member with number | point
  · rw [digit] at number
    cases number
  · exact other point

theorem port_notMem (port : Nat) {c : Char} (digit : c.isDigit = false) :
    c ∉ (toString port).toList := by
  intro member
  rw [isDigit_toString member] at digit
  cases digit

theorem Member.deliverable (m : Member) : m.request.Deliverable := by
  obtain ⟨-, nul, line, -⟩ := m.accepted
  intro part member
  simp only [Member.request, Request.fields, Request.username, Request.others, List.mem_cons,
    List.not_mem_nil, or_false] at member
  rcases member with rfl | rfl | rfl
  · exact ⟨notMem_encode (by decide) (by decide) nul, notMem_encode (by decide) (by decide) line⟩
  · exact ⟨notMem_encode (c := '\x00') (by decide) (by decide) (port_notMem _ (by decide)),
      notMem_encode (c := '\n') (by decide) (by decide) (port_notMem _ (by decide))⟩
  · exact ⟨notMem_encode (c := '\x00') (by decide) (by decide)
        (m.sockname.host_notMem (by decide) (by decide)),
      notMem_encode (c := '\n') (by decide) (by decide)
        (m.sockname.host_notMem (by decide) (by decide))⟩

theorem Member.entry_eq (m : Member) :
    m.entry = encode (String.ofList m.core) ++ ascii " \n" := by
  have blank : String.utf8EncodeChar ' ' = ascii " " := by decide
  rw [Member.entry, tableEntry, Member.core]
  simp [encode, blank]

theorem Member.lines_entry (m : Member) : lines m.entry = [m.entry] := lines_tableEntry m.deliverable

theorem Member.entry_clean (m : Member) : (0 : UInt8) ∉ m.entry := by
  have fields := m.deliverable
  simp only [Request.Deliverable, Member.request, Request.fields, Request.username, Request.others,
    List.forall_mem_cons] at fields
  obtain ⟨user, port, host, -⟩ := fields
  simp only [Member.entry, tableEntry, List.mem_append, not_or]
  exact ⟨⟨⟨⟨⟨user.1, by decide⟩, host.1⟩, by decide⟩, port.1⟩, by decide⟩

/-! ## One message -/

theorem note_parts (listUsers : ListUsers) (m : Member) (last : List Char) {i : Nat} (few : i < 4) :
    ∃ later, note listUsers
        [m.user.toList, m.sockname.host.toList, (toString m.sockname.port).toList, last] i =
      some (m.noted listUsers,
        [m.user.toList, m.sockname.host.toList, (toString m.sockname.port).toList, later]) := by
  obtain ⟨-, nul, line, -⟩ := m.accepted
  have plain : ∀ {part : List Char}, '\x00' ∉ part → '\n' ∉ part →
      strip '\n' (strip '\x00' part) = part := by
    intro part nul line
    rw [strip_of_notMem nul, strip_of_notMem line]
  have user := plain nul line
  have host := plain (m.sockname.host_notMem (c := '\x00') (by decide) (by decide))
    (m.sockname.host_notMem (c := '\n') (by decide) (by decide))
  have port := plain (port_notMem m.sockname.port (c := '\x00') (by decide))
    (port_notMem m.sockname.port (c := '\n') (by decide))
  have number := int_toString m.sockname.port
  generalize (toString m.sockname.port).toList = text at port number
  match i, few with
  | 0, _ => exact ⟨last, by simp [note, List.modify, user, number, Member.noted]⟩
  | 1, _ => exact ⟨last, by simp [note, List.modify, host, number, Member.noted]⟩
  | 2, _ => exact ⟨last, by simp [note, List.modify, port, number, Member.noted]⟩
  | 3, _ => exact ⟨_, by simp [note, List.modify, number, Member.noted]; rfl⟩

theorem noteAll_parts (m : Member) (turns : List Nat) :
    ∀ {listUsers : ListUsers} {last : List Char}, (∀ i ∈ turns, i < 4) → turns ≠ [] →
      noteAll turns listUsers
        [m.user.toList, m.sockname.host.toList, (toString m.sockname.port).toList, last] =
        (m.noted listUsers, true) := by
  induction turns with
  | nil => exact fun _ none_left => absurd rfl none_left
  | cons i turns ih =>
      intro listUsers last few _
      obtain ⟨later, noted⟩ := note_parts listUsers m last (few i List.mem_cons_self)
      rw [noteAll, noted]
      simp only
      cases turns with
      | nil => rfl
      | cons j turns =>
          rw [ih (fun i member => few i (List.mem_cons_of_mem _ member)) (by simp), Member.noted,
            Member.noted, Function.update_idem]

theorem noteLine_whole (listUsers : ListUsers) (m : Member) {last : List Char} (plain : ' ' ∉ last) :
    noteLine listUsers (encode (String.ofList (m.core ++ ' ' :: last))) =
      (m.noted listUsers, true) := by
  have parts : split (m.core ++ ' ' :: last) =
      [m.user.toList, m.sockname.host.toList, (toString m.sockname.port).toList, last] := by
    rw [Member.core, List.append_assoc, List.cons_append, List.append_assoc, List.cons_append,
      split_cons m.accepted.1, split_cons (m.sockname.host_notMem (by decide) (by decide)),
      split_cons (port_notMem _ (by decide)), split_single plain]
  rw [noteLine, decode_encode]
  simp only [String.toList_ofList, parts]
  exact noteAll_parts m _ (fun i member => List.mem_range.mp member) (by simp [List.range_succ])

theorem noteLine_fails (listUsers : ListUsers) {usuarioConectado : Bytes}
    (unfit : ∀ text port, decode usuarioConectado = some text →
      (split text.toList)[2]? = some port → int port = none) :
    noteLine listUsers usuarioConectado = (listUsers, false) := by
  rw [noteLine]
  cases decoded : decode usuarioConectado with
  | none => rfl
  | some text =>
      replace unfit := unfit text
      simp only
      cases parts : split text.toList with
      | nil => exact absurd parts (split_ne_nil _)
      | cons user rest =>
          rw [parts] at unfit
          have failed : note listUsers (user :: rest) 0 = none := by
            rw [note]
            cases rest with
            | nil => rfl
            | cons host rest =>
                cases rest with
                | nil => rfl
                | cons port rest =>
                    have number : int port = none := unfit port decoded rfl
                    simp [List.modify, number]
          rw [List.length_cons, List.range_succ_eq_map, noteAll, failed]

theorem noteLine_cut (listUsers : ListUsers) (m : Member) {piece rest : Bytes}
    (cut : encode (String.ofList m.core) = piece ++ rest) :
    noteLine listUsers (piece ++ [0]) = (listUsers, false) := by
  apply noteLine_fails
  intro text port decoded here
  obtain ⟨before, ends, bytes⟩ := encode_ends_nul (decode_eq_some.mp decoded).symm
  have start : before.toList <+: m.core := by
    have inside : before.toList <+: (String.ofList m.core).toList :=
      prefix_of_encode_prefix (bytes.symm ▸ cut.symm : encode before ++ rest = _)
    rwa [String.toList_ofList] at inside
  have two : m.core.count ' ' = 2 := by
    simp only [Member.core, List.count_append, List.count_cons_self,
      List.count_eq_zero.mpr m.accepted.1,
      List.count_eq_zero.mpr (m.sockname.host_notMem (c := ' ') (by decide) (by decide)),
      List.count_eq_zero.mpr (port_notMem m.sockname.port (c := ' ') (by decide))]
  rw [ends] at here
  exact int_of_nul (split_last (by decide) 2 ((start.sublist.count_le ' ').trans two.le) here)

/-! ## The messages of the table -/

theorem encode_core_append (m : Member) (last : List Char) :
    encode (String.ofList (m.core ++ last)) =
      encode (String.ofList m.core) ++ encode (String.ofList last) := by
  simp [encode]

theorem Member.length_entry (m : Member) :
    m.entry.length = (encode (String.ofList m.core)).length + 2 := by
  rw [m.entry_eq, List.length_append]
  rfl

theorem pieces_entry_short (short : m.entry.length ≤ 255) : pieces 256 m.entry = [m.entry] := by
  have listed : m.entry ∈ lines m.entry := by
    rw [m.lines_entry]
    exact List.mem_singleton_self _
  exact pieces_of_short listed (Nat.lt_succ_of_le short)

theorem pieces_entry_full (full : m.entry.length = 256) :
    pieces 256 m.entry = [encode (String.ofList m.core) ++ [space], [newline]] := by
  have core := m.length_entry
  have blanks : ascii " \n" = [space, newline] := by decide
  have shape : Chunked 255 [encode (String.ofList m.core) ++ [space], [newline]] := by
    have alone : m.entry ∈ lines m.entry := by
      rw [m.lines_entry]
      exact List.mem_singleton_self _
    have line := (isLine_of_mem alone).2
    have size : (encode (String.ofList m.core) ++ [space]).length = 255 := by
      rw [List.length_append, List.length_singleton]
      omega
    refine ⟨⟨by simp, size.le, fun inside => line ?_⟩, fun _ => Or.inl size,
      ⟨by simp, by simp, by simp⟩, fun more => absurd rfl more, trivial⟩
    rw [m.entry_eq, blanks, ← List.singleton_append, ← List.append_assoc, List.dropLast_concat]
    exact List.dropLast_subset _ inside
  have cut := pieces_of_chunked (by decide) shape
  rw [m.entry_eq, blanks]
  simpa using cut

theorem pieces_entry_long (long : 256 < m.entry.length) :
    ∃ piece rest more, pieces 256 m.entry = piece :: more ∧
      encode (String.ofList m.core) = piece ++ rest := by
  have core := m.length_entry
  have some_bytes : m.entry ≠ [] := List.ne_nil_of_length_pos (by omega)
  have first : (cutPiece 255 m.entry).1 = (encode (String.ofList m.core)).take 255 := by
    rw [cutPiece_firstLine, firstLine, m.lines_entry, List.headD_cons, m.entry_eq,
      List.take_append_of_le_length (by omega)]
  exact ⟨_, _, _, (pieces_cons 256 (by decide) some_bytes).trans (by rw [first]),
    (List.take_append_drop 255 _).symm⟩

def linesOf (members : List Member) : List Bytes :=
  (members.flatMap fun m => pieces 256 m.entry).map lineMessage

def noteMessages (received : List Bytes) (listUsers : ListUsers) : ListUsers :=
  (noteLines received.length received listUsers).1

theorem noteMessages_noted {listUsers later : ListUsers} {message : Bytes}
    (noted : noteLine listUsers message = (later, true)) (received : List Bytes) :
    noteMessages (message :: received) listUsers = noteMessages received later := by
  rw [noteMessages, List.length_cons, noteLines, List.headD_cons, noted]
  rfl

theorem noteMessages_failed {listUsers : ListUsers} {message : Bytes}
    (failed : noteLine listUsers message = (listUsers, false)) (received : List Bytes) :
    noteMessages (message :: received) listUsers = listUsers := by
  rw [noteMessages, List.length_cons, noteLines, List.headD_cons, failed]

theorem lineMessage_entry {piece : Bytes} (member : piece ∈ pieces 256 m.entry) :
    lineMessage piece = piece ++ [0] := lineMessage_of_clean m.entry_clean member

theorem noteMessages_short (short : m.entry.length ≤ 255) (listUsers : ListUsers)
    (received : List Bytes) :
    noteMessages ((pieces 256 m.entry).map lineMessage ++ received) listUsers =
      noteMessages received (m.noted listUsers) := by
  have only := pieces_entry_short short
  have message : lineMessage m.entry = encode (String.ofList (m.core ++ ' ' :: ['\n', '\x00'])) := by
    rw [lineMessage_entry (by rw [only]; exact List.mem_singleton_self _), encode_core_append,
      m.entry_eq, List.append_assoc]
    rfl
  rw [only, List.map_singleton, List.singleton_append, message]
  exact noteMessages_noted (noteLine_whole listUsers m (by decide)) received

theorem noteMessages_full (full : m.entry.length = 256) (listUsers : ListUsers)
    (received : List Bytes) :
    noteMessages ((pieces 256 m.entry).map lineMessage ++ received) listUsers =
      m.noted listUsers := by
  have both := pieces_entry_full full
  have first : lineMessage (encode (String.ofList m.core) ++ [space]) =
      encode (String.ofList (m.core ++ ' ' :: ['\x00'])) := by
    rw [lineMessage_entry (by rw [both]; exact List.mem_cons_self), encode_core_append,
      List.append_assoc]
    rfl
  have second : ∀ later, noteLine later (lineMessage [newline]) = (later, false) := by
    intro later
    have message : lineMessage [newline] = encode "\n\x00" := by decide
    rw [message]
    apply noteLine_fails
    intro text port decoded here
    rw [decode_encode] at decoded
    cases decoded
    have single : split "\n\x00".toList = ["\n\x00".toList] := by decide
    rw [single] at here
    cases here
  rw [both, List.map_cons, List.map_singleton, List.cons_append, List.singleton_append, first,
    noteMessages_noted (noteLine_whole listUsers m (by decide)), noteMessages_failed (second _)]

theorem noteMessages_long (long : 256 < m.entry.length) (listUsers : ListUsers)
    (received : List Bytes) :
    noteMessages ((pieces 256 m.entry).map lineMessage ++ received) listUsers = listUsers := by
  obtain ⟨piece, rest, more, cut, start⟩ := pieces_entry_long long
  have message : lineMessage piece = piece ++ [0] :=
    lineMessage_entry (by rw [cut]; exact List.mem_cons_self)
  rw [cut, List.map_cons, List.cons_append, message]
  exact noteMessages_failed (noteLine_cut listUsers m start) _

theorem linesFit_cons_short (short : m.entry.length ≤ 255) :
    LinesFit (m :: members) ↔ LinesFit members := by
  cases members with
  | nil =>
      refine iff_of_true ⟨by simp, fun m' last => ?_⟩ ⟨by simp, by simp⟩
      obtain rfl : m = m' := by simpa using last
      omega
  | cons next rest =>
      rw [LinesFit, LinesFit, List.dropLast_cons_cons, List.forall_mem_cons, List.getLast?_cons_cons]
      exact and_congr_left' (and_iff_right short)

theorem linesFit_cons_long (long : 255 < m.entry.length) :
    LinesFit (m :: members) ↔ members = [] ∧ m.entry.length ≤ 256 := by
  cases members with
  | nil =>
      rw [LinesFit]
      simp
  | cons next rest =>
      rw [LinesFit, List.dropLast_cons_cons, List.forall_mem_cons]
      refine iff_of_false (fun fits => ?_) (by simp)
      exact absurd fits.1.1 (not_le.mpr long)

/-- The map is the one of all users if the lines fit, otherwise it lacks one of them. -/
theorem noteMessages_linesOf (members : List Member) :
    ∀ {listUsers : ListUsers}, (members.map Member.user).Nodup →
      (LinesFit members → noteMessages (linesOf members) listUsers =
        members.foldl (fun users m => m.noted users) listUsers) ∧
      (¬ LinesFit members → ∃ m ∈ members,
        noteMessages (linesOf members) listUsers m.user = listUsers m.user) := by
  induction members with
  | nil => exact fun _ => ⟨fun _ => rfl, fun unfit => absurd ⟨by simp, by simp⟩ unfit⟩
  | cons m rest ih =>
      intro listUsers distinct
      rw [List.map_cons, List.nodup_cons] at distinct
      obtain ⟨fresh, distinct⟩ := distinct
      have elsewhere : ∀ m' ∈ rest, m.noted listUsers m'.user = listUsers m'.user := by
        intro m' member
        refine Function.update_of_ne (fun same => fresh ?_) _ _
        exact same ▸ List.mem_map_of_mem member
      have messages : linesOf (m :: rest) = (pieces 256 m.entry).map lineMessage ++ linesOf rest := by
        rw [linesOf, linesOf, List.flatMap_cons, List.map_append]
      rw [messages]
      rcases Nat.lt_or_ge 255 m.entry.length with long | short
      · rw [linesFit_cons_long long]
        rcases Nat.lt_or_ge 256 m.entry.length with longer | full
        · rw [noteMessages_long longer]
          exact ⟨fun fits => absurd fits.2 (by omega), fun _ => ⟨m, List.mem_cons_self, rfl⟩⟩
        · rw [noteMessages_full (by omega)]
          refine ⟨?_, fun unfit => ?_⟩
          · rintro ⟨rfl, -⟩
            rfl
          · cases rest with
            | nil => exact absurd ⟨rfl, full⟩ unfit
            | cons next rest =>
                exact ⟨next, by simp, elsewhere next List.mem_cons_self⟩
      · rw [linesFit_cons_short short, noteMessages_short short]
        obtain ⟨all, lacking⟩ := @ih (m.noted listUsers) distinct
        refine ⟨all, fun unfit => ?_⟩
        obtain ⟨m', member, same⟩ := lacking unfit
        exact ⟨m', List.mem_cons_of_mem _ member, same.trans (elsewhere m' member)⟩

theorem foldl_noted (members : List Member) : ∀ {listUsers : ListUsers},
    (members.map Member.user).Nodup → ∀ name,
      members.foldl (fun users m => m.noted users) listUsers name =
        (usersOf members name).or (listUsers name) := by
  induction members with
  | nil => exact fun _ name => rfl
  | cons m rest ih =>
      intro listUsers distinct name
      rw [List.map_cons, List.nodup_cons] at distinct
      rw [List.foldl_cons, ih distinct.2]
      by_cases here : m.user = name
      · have gone : usersOf rest name = none := by
          rw [usersOf, Option.map_eq_none_iff, List.find?_eq_none]
          intro m' member
          rw [decide_eq_true_eq]
          exact fun same => distinct.1 (here.trans same.symm ▸ List.mem_map_of_mem member)
        rw [gone, Option.none_or, Member.noted, here, Function.update_self]
        simp [usersOf, here]
      · rw [Member.noted, Function.update_of_ne (Ne.symm here)]
        simp [usersOf, here]

theorem usersOf_of_mem (member : m ∈ members) : usersOf members m.user ≠ none := by
  rw [usersOf, ne_eq, Option.map_eq_none_iff, List.find?_eq_none]
  exact fun absent => absent m member (decide_eq_true rfl)

theorem noteMessages_eq_usersOf_iff (distinct : (members.map Member.user).Nodup) :
    noteMessages (linesOf members) (fun _ => none) = usersOf members ↔ LinesFit members := by
  obtain ⟨all, lacking⟩ := @noteMessages_linesOf members (fun _ => none) distinct
  constructor
  · intro same
    by_contra unfit
    obtain ⟨m, member, none_left⟩ := lacking unfit
    rw [same] at none_left
    exact usersOf_of_mem member none_left
  · intro fits
    rw [all fits]
    funext name
    rw [foldl_noted members distinct, Option.or_none]

theorem lines_members (members : List Member) :
    lines (members.flatMap Member.entry) = members.map Member.entry := by
  induction members with
  | nil => rfl
  | cons m rest ih =>
      have finished : Finished m.entry := finished_tableEntry [] _ _ _
      rw [List.flatMap_cons, lines_append finished, m.lines_entry, ih, List.map_cons,
        List.singleton_append]

theorem pieces_members (members : List Member) :
    (pieces 256 (members.flatMap Member.entry)).map lineMessage = linesOf members := by
  rw [pieces_eq_flatMap_lines 256 (by decide), lines_members, List.flatMap_map, linesOf]

theorem listUsersAfter_usersMessages (listUsers : ListUsers) (members : List Member) :
    listUsersAfter listUsers (usersMessages (members.flatMap Member.entry)) =
      noteMessages (linesOf members) fun _ => none := by
  have messages := pieces_members members
  have zero : ascii "0" ++ [0] = encode "0\x00" := by decide
  have nul : encode "\x00" = [0] := by decide
  have counted : ∀ n : Nat, decimal n ++ [0] = encode (toString n ++ "\x00") := by
    intro n
    have digits : ∀ c ∈ (toString n).toList, c.toNat < 128 := by
      intro c member
      have digit := isDigit_toString member
      rw [Char.isDigit, Bool.and_eq_true, decide_eq_true_eq, decide_eq_true_eq] at digit
      have high : c.toNat ≤ 57 := UInt32.le_iff_toNat_le.mp digit.2
      omega
    rw [encode_append, nul, ← ascii_eq_encode digits]
    rfl
  have number : ∀ n : Nat, int (strip '\x00' (toString n ++ "\x00").toList) = some (n : Int) := by
    intro n
    rw [String.toList_append, show "\x00".toList = ['\x00'] from rfl,
      strip_append (port_notMem n (by decide)), int_toString]
  rw [usersMessages, messages, counted, zero, listUsersAfter]
  simp only [List.headD_cons, List.tail_cons, decode_encode, number]
  rw [if_pos (by decide), noteMessages, ← messages, List.length_map]
  rfl

end Members

/-! ## The table -/

/-- The request takes nothing out of the table. -/
def Adds : Request → Prop
  | .register _ => True
  | .connect _ _ _ => True
  | .publish _ _ _ => True
  | .listUsers _ => True
  | .listContent _ _ => True
  | _ => False

instance : DecidablePred Adds
  | .register _ | .connect _ _ _ | .publish _ _ _ | .listUsers _ | .listContent _ _ => isTrue trivial
  | .unregister _ | .disconnect _ | .delete _ _ => isFalse id

def written : Request → Bytes → Bytes
  | .connect username freePort freeServer, res =>
      if res = ascii "0" then tableEntry username freeServer freePort else []
  | _, _ => []

def isConnection : Request × Reply → Bool
  | (.connect _ _ _, reply) => reply.res = ascii "0"
  | _ => false

def connections (history : History) : List Request := (history.filter isConnection).map Prod.fst

theorem written_connections (history : History) :
    (history.flatMap fun event => written event.1 event.2.res) =
      (connections history).flatMap fun request => written request (ascii "0") := by
  induction history with
  | nil => rfl
  | cons event rest ih =>
      obtain ⟨request, reply⟩ := event
      rw [List.flatMap_cons, ih, connections, connections, List.filter_cons]
      cases request with
      | connect username freePort freeServer =>
          by_cases zero : reply.res = ascii "0"
          · simp [isConnection, written, zero]
          · simp [isConnection, written, zero]
      | _ => rfl

theorem outcome_written {t t' : FileTree} {request : Request} {res text : Bytes}
    (outcome : Outcome t request res t') (adds : Adds request) (here : table t = some text) :
    table t' = some (text ++ written request res) := by
  have kept : table t' = some text → written request res = [] →
      table t' = some (text ++ written request res) := by
    intro same nothing
    rw [same, nothing, List.append_nil]
  have cwd := outcome_cwd outcome
  cases outcome with
  | unchanged quiet =>
      apply kept here
      cases request with
      | connect username freePort freeServer =>
          exact if_neg fun zero => (quiet zero).elim
      | _ => rfl
  | registered made =>
      obtain ⟨_, _, absent, _, only⟩ := mkdir_some made
      exact kept (table_of_created here absent only) rfl
  | opened registered openedTable =>
      obtain ⟨_, _, now, _, before⟩ := openAppend_table openedTable
      have refused : ascii "2" ≠ ascii "0" := by decide
      refine kept ?_ (by rw [written, if_neg refused])
      rw [table_of_node_file cwd now]
      rcases before with same | ⟨gone, -⟩
      · exact same.symm.trans here
      · exact absurd (gone.symm.trans here) (by simp)
  | connected registered openedTable free =>
      obtain ⟨_, rfl, now, _, before⟩ := openAppend_table openedTable
      rw [table_of_node_file cwd (node_append now _), written, if_pos rfl]
      rcases before with same | ⟨gone, -⟩
      · rw [Option.some.inj (same.symm.trans here)]
      · exact absurd (gone.symm.trans here) (by simp)
  | published publication =>
      obtain ⟨_, _, absent, _, only⟩ := published_node publication
      exact kept (table_of_created here absent only) rfl
  | thinned | unregistered | tried | swapped | deleted => exact adds.elim

theorem table_written {start t : FileTree} {history : History} (started : Started start)
    (run : Run Server.Serves start history t) :
    (∀ event ∈ history, Adds event.1) →
      table t = some (history.flatMap fun event => written event.1 event.2.res) := by
  refine run.invariant (P := fun past t => (∀ event ∈ past, Adds event.1) →
    table t = some (past.flatMap fun event => written event.1 event.2.res)) (fun _ => started.2) ?_
  intro past middle event later here served adds
  have before := here fun e member => adds e (List.mem_append_left _ member)
  have added := adds event (List.mem_append_right _ (List.mem_singleton_self _))
  rw [List.flatMap_append, List.flatMap_singleton]
  exact outcome_written (serves_outcome served) added before

theorem table_members {start t : FileTree} {history : History} (started : Started start)
    (run : Run Server.Serves start history t) (adds : ∀ event ∈ history, Adds event.1)
    {members : List Member} (connected : connections history = members.map Member.request) :
    table t = some (members.flatMap Member.entry) := by
  rw [table_written started run adds, written_connections, connected, List.flatMap_map]
  rfl

/-! ## The whole listing -/

theorem lineas_acks (n : Nat) : ∀ k, ∀ campo ∈ lineas n (acks k), campo.length < 256 := by
  induction n with
  | zero => exact fun _ campo member => by cases member
  | succ n ih =>
      intro k campo member
      obtain ⟨short, rest⟩ := beforeEnd_acks k
      rw [lineas, rest, List.mem_cons] at member
      rcases member with rfl | later
      · exact short
      · exact ih _ campo later

section Listing
variable {env : Surroundings} {start t : FileTree} {history : History} {s : Sys}
  {input : List ReadResult} {writes : List WriteResult} {requester : String} {fecha : Bytes} {k : Nat}
  {members : List Member}

/-- LIST_USERS brings the map of the connected users if and only if the requester's
name and the lines of the table fit the arrays they are read into. -/
theorem lookup_iff (listUsers : ListUsers) (started : Started start)
    (run : Run Server.Serves start history t) (adds : ∀ event ∈ history, Adds event.1)
    (connected : connections history = members.map Member.request)
    (distinct : (members.map Member.user).Nodup) (tree : s.tree = t) (calm : s.faults = [])
    (named : requester ≠ "") (registered : t.access (folderOf (encode requester)) = true)
    (asked : Server.Asked env .listUsers [encode requester] fecha (acks k) input writes) :
    (∃ c, (tratarMensaje env).run (Conn.accepted s input writes) = .ok () c ∧
      listUsersAfter listUsers c.sent = usersOf members) ↔
      (encode requester).length < 8 ∧ LinesFit members := by
  subst tree
  have here := table_members started run adds connected
  have some_bytes : encode requester ≠ [] := by
    intro empty
    have short := length_le_encode requester
    rw [empty, List.length_nil, Nat.le_zero, ← String.length_toList, List.length_eq_zero_iff,
      String.toList_eq_nil_iff] at short
    exact named short
  have opened : s.tree.openRead conectadosTxt =
      some (tablePath s.tree, members.flatMap Member.entry) := by
    have found := find_table (rooted_of_access registered)
    rw [table_eq_some.mp here] at found
    rw [FileTree.openRead, found]
    rfl
  have ran := run_listUsersServ calm (encode requester)
  rw [if_neg some_bytes, registered, opened] at ran
  by_cases short : (encode requester).length < 8
  · rw [if_neg (not_le.mpr short), if_neg (by decide)] at ran
    have served : ∃ s', s'.tree = s.tree ∧ s'.faults = [] ∧
        (serve (Operacion.listUsers.request [encode requester])).run s =
          .ok ⟨ascii "0", some (pieces 256 (members.flatMap Member.entry)).length, none⟩ s' := by
      refine ⟨{ s with handles := s.handles ++ [HandleEvent.opened s.handles.length] ++
        [HandleEvent.closed s.handles.length] }, rfl, calm, ?_⟩
      show (serve (.listUsers (encode requester))).run s = _
      rw [serve, EStateM.run_bind, ran]
      rfl
    obtain ⟨s', tree, calm', served⟩ := served
    rw [← tree] at opened
    obtain ⟨c, finished, sent, -⟩ := asked.sends served calm' rfl
      (gives_listarUsuarios opened (lineas_acks _ k))
    have messages := listUsersAfter_usersMessages listUsers members
    have exact := noteMessages_eq_usersOf_iff distinct
    rw [← messages, ← sent] at exact
    rw [and_iff_right short, ← exact]
    constructor
    · rintro ⟨c', finished', same⟩
      cases finished.symm.trans finished'
      exact same
    · exact fun same => ⟨c, finished, same⟩
  · rw [if_pos (not_lt.mp short)] at ran
    have stopped : (serve (Operacion.listUsers.request [encode requester])).run s =
        .error .overflow s := by
      show (serve (.listUsers (encode requester))).run s = _
      rw [serve, EStateM.run_bind, ran]
    refine iff_of_false ?_ fun fits => short fits.1
    rintro ⟨c, finished, -⟩
    exact asked.stops_of_error stopped c finished

end Listing

def anaListens : Member := ⟨"ana", ⟨"10.0.0.1", 4001, by simp⟩, by decide⟩

def bobListens : Member := ⟨"bob", ⟨"10.0.0.2", 4002, by simp⟩, by decide⟩

def betweenListen : List Member :=
  [bobListens, anaListens, ⟨"eva", ⟨"10.0.0.3", 4003, by simp⟩, by decide⟩]

theorem lookup_iff_ana :
    ∃ c, (tratarMensaje answering).run (Conn.accepted ⟨treeAfter firstStart anaBetween, [], []⟩
        (reads (ascii "LIST_USERS\x00ana\x0010:00\x00OK\x00OK\x00OK\x00OK\x00")) []) = .ok () c ∧
      listUsersAfter (fun _ => none) c.sent = usersOf betweenListen := by
  have run : Run Server.Serves firstStart (historyAfter firstStart anaBetween)
      (treeAfter firstStart anaBetween) := run_treeAfter (by decide) (by decide +kernel)
  have adds : ∀ event ∈ historyAfter firstStart anaBetween, Adds event.1 := by decide +kernel
  have connected : connections (historyAfter firstStart anaBetween) =
      betweenListen.map Member.request := by decide +kernel
  have registered : (treeAfter firstStart anaBetween).access (folderOf (encode "ana")) = true := by
    decide +kernel
  generalize historyAfter firstStart anaBetween = history at run adds connected
  generalize treeAfter firstStart anaBetween = t at run registered ⊢
  have asked : Server.Asked answering .listUsers [encode "ana"] (ascii "10:00") (acks 4)
      (reads (ascii "LIST_USERS\x00ana\x0010:00\x00OK\x00OK\x00OK\x00OK\x00")) [] :=
    ⟨rfl, rfl, rfl, by decide, by decide, delivers_reads _⟩
  refine (lookup_iff (s := ⟨t, [], []⟩) _ (by decide) run adds connected (by decide) rfl rfl
    (by decide) registered asked).mpr ⟨by decide, ?_⟩
  refine (linesFit_cons_short (by decide)).mpr ((linesFit_cons_short (by decide)).mpr ?_)
  exact (linesFit_cons_short (by decide)).mpr ⟨by simp, by simp⟩

theorem encode_replicate (n : Nat) :
    encode (String.ofList (List.replicate n 'a')) = List.replicate n 97 := by
  have one : String.utf8EncodeChar 'a' = [97] := by decide
  rw [encode, String.toList_ofList]
  induction n with
  | zero => rfl
  | succ n ih =>
      rw [List.replicate_succ, List.flatMap_cons, ih, one, List.singleton_append,
        List.replicate_succ]

theorem accepted_replicate {n : Nat} (short : n ≤ 255) :
    ' ' ∉ (String.ofList (List.replicate n 'a')).toList ∧
      PlainValue (String.ofList (List.replicate n 'a')) := by
  have only : ∀ c : Char, c ≠ 'a' → c ∉ List.replicate n 'a' := fun c other member =>
    other (List.eq_of_mem_replicate member)
  rw [PlainValue, encode_replicate, String.toList_ofList, List.length_replicate]
  exact ⟨only _ (by decide), only _ (by decide), only _ (by decide), short⟩

def longListens : Member :=
  ⟨String.ofList (List.replicate 239 'a'), ⟨"127.0.0.1", 40001, by simp⟩,
    accepted_replicate (by decide)⟩

def longConnected : List Request :=
  [.register (ascii "ana"), .register (encode longListens.user), longListens.request]

theorem encode_longListens : encode longListens.user = List.replicate 239 97 := encode_replicate 239

theorem served_longConnected :
    (serveAll firstStart longConnected).isSome = true ∧
      (∀ r ∈ longConnected, r.Deliverable) ∧
      (∀ event ∈ historyAfter firstStart longConnected, Adds event.1) ∧
      connections (historyAfter firstStart longConnected) = [longListens].map Member.request ∧
      (treeAfter firstStart longConnected).access (folderOf (encode "ana")) = true := by
  rw [List.map_singleton, longConnected, Member.request, encode_longListens]
  decide +kernel

/-- The line is cut before its port is over, and the client raises an exception. -/
theorem long_name_not_listed :
    ¬ ∀ (env : Surroundings) (start : FileTree) (history : History) (s : Sys)
      (input : List ReadResult) (writes : List WriteResult) (requester : String) (fecha : Bytes)
      (k : Nat) (members : List Member) (listUsers : ListUsers), Started start →
      Run Server.Serves start history s.tree → (∀ event ∈ history, Adds event.1) →
      connections history = members.map Member.request → (members.map Member.user).Nodup →
      s.faults = [] → requester ≠ "" → s.tree.access (folderOf (encode requester)) = true →
      Server.Asked env .listUsers [encode requester] fecha (acks k) input writes →
      ∃ c, (tratarMensaje env).run (Conn.accepted s input writes) = .ok () c ∧
        listUsersAfter listUsers c.sent = usersOf members := by
  intro always
  obtain ⟨served, deliverable, adds, connected, registered⟩ := served_longConnected
  have run : Run Server.Serves firstStart (historyAfter firstStart longConnected)
      (treeAfter firstStart longConnected) := run_treeAfter deliverable served
  generalize historyAfter firstStart longConnected = history at run adds connected
  generalize treeAfter firstStart longConnected = t at run registered
  have asked : Server.Asked answering .listUsers [encode "ana"] (ascii "10:00") (acks 2)
      (reads (ascii "LIST_USERS\x00ana\x0010:00\x00OK\x00OK\x00")) [] :=
    ⟨rfl, rfl, rfl, by decide, by decide, delivers_reads _⟩
  have distinct : ([longListens].map Member.user).Nodup := List.nodup_singleton _
  have listed := (lookup_iff (s := ⟨t, [], []⟩) (fun _ => none) (by decide) run adds connected
    distinct rfl rfl (by decide) registered asked).mp
      (always answering firstStart history ⟨t, [], []⟩ _ _ "ana" _ 2 _ _ (by decide) run adds connected
        distinct rfl (by decide) registered asked)
  have long : longListens.entry.length = 257 := by
    rw [Member.entry, encode_longListens]
    decide +kernel
  have fits := listed.2.2 longListens rfl
  omega

end DistrApp.Client
