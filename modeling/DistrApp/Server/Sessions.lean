import DistrApp.Accounts
import DistrApp.Library.Keyed
import DistrApp.Server.Reconnect
import DistrApp.Server.Schedules

/-!
# The table as a list of sessions

`connect_serv` looks for the name among all words of the table and
`disconnect_serv` anywhere in a line.  For names that occur in no entry but
their own, both tests are about the user's session: the table is the entries of
the users who are connected, each once, in the order in which they came.
-/

set_option autoImplicit false

namespace DistrApp.Server

open Text FileTree Effects

/-- A connected user and where the client listens. -/
structure Seat where
  username : Bytes
  freeServer : Bytes
  freePort : Bytes
  deriving DecidableEq

namespace Seat

def place (seat : Seat) : Bytes × Bytes := (seat.freeServer, seat.freePort)

def entry (seat : Seat) : Bytes := tableEntry seat.username seat.freeServer seat.freePort

def request (seat : Seat) : Request := .connect seat.username seat.freePort seat.freeServer

end Seat

/-- The names of the users, each one word, and the places where clients listen;
a name occurs in the entry of its user only. -/
structure Vocabulary where
  users : Set Bytes
  places : Set (Bytes × Bytes)
  oneWord : ∀ u ∈ users, u ≠ [] ∧ ∀ b ∈ u, isSpace b = false
  apart : ∀ u ∈ users, ∀ v ∈ users, ∀ place ∈ places, u <:+: tableEntry v place.1 place.2 → u = v

/-- What is asked of the requests that read or write the table. -/
def Vocabulary.Speaks (V : Vocabulary) : Request → Prop
  | .connect username freePort freeServer => username ∈ V.users ∧ (freeServer, freePort) ∈ V.places
  | .disconnect username => username ∈ V.users
  | _ => True

/-! ## Names that are no part of each other -/

theorem infix_beside {sep : UInt8} {part before after : Bytes} (absent : sep ∉ part)
    (inside : part <:+: before ++ sep :: after) : part <:+: before ∨ part <:+: after := by
  obtain ⟨front, back, whole⟩ := inside
  rcases List.append_eq_append_iff.mp whole with ⟨middle, first, _⟩ | ⟨middle, first, rest⟩
  · exact Or.inl ⟨front, middle, first.symm⟩
  · cases middle with
    | nil => exact Or.inl ⟨front, [], by rw [List.append_nil, first, List.append_nil]⟩
    | cons b middle =>
        obtain ⟨rfl, later⟩ := List.cons.inj rest
        rcases List.append_eq_append_iff.mp first with ⟨cut, _, own⟩ | ⟨cut, _, own⟩
        · exact absurd (own ▸ List.mem_append_right cut List.mem_cons_self) absent
        · cases cut with
          | nil =>
              rw [List.nil_append] at own
              exact absurd (own ▸ List.mem_cons_self) absent
          | cons _ cut => exact Or.inr ⟨cut, back, by rw [later, (List.cons.inj own).2]; rfl⟩

section Names
variable {u v freeServer freePort : Bytes}

theorem infix_tableEntry (word : u ≠ [] ∧ ∀ b ∈ u, isSpace b = false)
    (inside : u <:+: tableEntry v freeServer freePort) :
    u <:+: v ∨ u <:+: freeServer ∨ u <:+: freePort := by
  have noSpace : space ∉ u := fun member => absurd (word.2 space member) (by decide)
  have noNewline : newline ∉ u := fun member => absurd (word.2 newline member) (by decide)
  have solid : ¬ u <:+: [] := fun empty => word.1 (List.infix_nil.mp empty)
  rw [tableEntry_eq] at inside
  have text := (infix_beside noNewline inside).resolve_right solid
  rcases infix_beside noSpace text with first | text
  · exact Or.inl first
  · rcases infix_beside noSpace text with second | text
    · exact Or.inr (Or.inl second)
    · exact Or.inr (Or.inr ((infix_beside noSpace text).resolve_right solid))

/-- Names none of which is part of another, each with a byte that no place has. -/
def Vocabulary.ofNames (users : Set Bytes) (places : Set (Bytes × Bytes))
    (oneWord : ∀ u ∈ users, u ≠ [] ∧ ∀ b ∈ u, isSpace b = false)
    (incomparable : ∀ u ∈ users, ∀ v ∈ users, u <:+: v → u = v)
    (mark : ∀ u ∈ users, ∀ place ∈ places, ∃ b ∈ u, b ∉ place.1 ∧ b ∉ place.2) : Vocabulary where
  users := users
  places := places
  oneWord := oneWord
  apart u user v other place known inside := by
    obtain ⟨b, own, notServer, notPort⟩ := mark u user place known
    rcases infix_tableEntry (oneWord u user) inside with part | part | part
    · exact incomparable u user v other part
    · exact absurd (part.subset own) notServer
    · exact absurd (part.subset own) notPort

end Names

/-! ## The table of some seats -/

/-- The seat was taken by a request that `readLine` can deliver. -/
structure Vocabulary.Knows (V : Vocabulary) (seat : Seat) : Prop where
  user : seat.username ∈ V.users
  place : seat.place ∈ V.places
  deliverable : seat.request.Deliverable

/-- The table is the entries of the seats, one for each user. -/
structure Seated (V : Vocabulary) (t : FileTree) (seats : List Seat) : Prop where
  written : table t = some (seats.flatMap Seat.entry)
  known : ∀ seat ∈ seats, V.Knows seat
  distinct : (seats.map Seat.username).Nodup

section Seats
variable {V : Vocabulary} {seats : List Seat} {seat : Seat} {u : Bytes}

theorem Seat.finished_entry (seat : Seat) : Finished seat.entry := finished_tableEntry [] _ _ _

theorem lines_entry (known : V.Knows seat) : lines seat.entry = [seat.entry] :=
  lines_tableEntry known.deliverable

theorem firstField_entry (known : V.Knows seat) : firstField seat.entry = seat.username := by
  rw [Seat.entry, firstField_tableEntry, firstField_of_plain (V.oneWord _ known.user).2]

theorem lines_seats (known : ∀ seat ∈ seats, V.Knows seat) :
    lines (seats.flatMap Seat.entry) = seats.map Seat.entry := by
  induction seats with
  | nil => rfl
  | cons seat rest ih =>
      rw [List.flatMap_cons, lines_append seat.finished_entry, lines_entry (known seat
        List.mem_cons_self), ih fun other member => known other (List.mem_cons_of_mem _ member),
        List.map_cons, List.singleton_append]

theorem infix_entry_iff (user : u ∈ V.users) (known : V.Knows seat) :
    u <:+: seat.entry ↔ seat.username = u := by
  constructor
  · exact fun inside => (V.apart u user _ known.user _ known.place inside).symm
  · rintro rfl
    rw [Seat.entry, tableEntry_eq, List.append_assoc]
    exact (List.prefix_append _ _).isInfix

theorem mem_words_seats (user : u ∈ V.users) (known : ∀ seat ∈ seats, V.Knows seat) :
    u ∈ words (seats.flatMap Seat.entry) ↔ ∃ seat ∈ seats, seat.username = u := by
  rw [words_lines, lines_seats known, List.mem_flatMap]
  constructor
  · rintro ⟨line, member, word⟩
    obtain ⟨seat, here, rfl⟩ := List.mem_map.mp member
    exact ⟨seat, here, (infix_entry_iff user (known seat here)).mp (infix_of_mem_words word)⟩
  · rintro ⟨seat, here, rfl⟩
    refine ⟨seat.entry, List.mem_map_of_mem here, ?_⟩
    obtain ⟨nonempty, plain⟩ := V.oneWord _ user
    rw [Seat.entry, tableEntry_eq, List.append_assoc, List.cons_append,
      words_append_cons _ _ (by decide), words_single nonempty plain]
    exact List.mem_append_left _ (List.mem_singleton.mpr rfl)

section Pieces
variable (short : ∀ line ∈ lines (seats.flatMap Seat.entry), line.length ≤ 255)
include short

theorem pieces_entry (known : ∀ seat ∈ seats, V.Knows seat) (member : seat ∈ seats) :
    pieces 256 seat.entry = [seat.entry] := by
  have here : seat.entry ∈ lines (seats.flatMap Seat.entry) := by
    rw [lines_seats known]
    exact List.mem_map_of_mem member
  exact pieces_of_short here (Nat.lt_succ_of_le (short _ here))

theorem pieces_seats (known : ∀ seat ∈ seats, V.Knows seat) :
    pieces 256 (seats.flatMap Seat.entry) = seats.map Seat.entry := by
  rw [pieces_eq_flatMap_lines 256 (by omega), lines_seats known, List.flatMap_map,
    List.map_eq_flatMap]
  exact List.flatMap_congr fun seat member => pieces_entry short known member

theorem matchesSome_seats (clean : (0 : UInt8) ∉ seats.flatMap Seat.entry) (user : u ∈ V.users)
    (known : ∀ seat ∈ seats, V.Knows seat) :
    matchesSome u (seats.flatMap Seat.entry) = true ↔ ∃ seat ∈ seats, seat.username = u := by
  rw [matchesSome_of_clean clean, pieces_seats short known]
  constructor
  · rintro ⟨piece, member, inside⟩
    obtain ⟨seat, here, rfl⟩ := List.mem_map.mp member
    exact ⟨seat, here, (infix_entry_iff user (known seat here)).mp inside⟩
  · rintro ⟨seat, here, same⟩
    exact ⟨seat.entry, List.mem_map_of_mem here, (infix_entry_iff user (known seat here)).mpr same⟩

theorem kept_seats (clean : (0 : UInt8) ∉ seats.flatMap Seat.entry) (user : u ∈ V.users)
    (known : ∀ seat ∈ seats, V.Knows seat) :
    kept u (seats.flatMap Seat.entry) =
      (seats.filter fun seat => seat.username ≠ u).flatMap Seat.entry := by
  have whole := (kept_eq_withoutUser_iff clean).mpr (by
    intro line member piece inside
    rw [lines_seats known] at member
    obtain ⟨seat, here, rfl⟩ := List.mem_map.mp member
    rw [pieces_entry short known here, List.mem_singleton] at inside
    rw [inside, firstField_entry (known seat here)]
    exact infix_entry_iff user (known seat here))
  rw [whole, withoutUser, lines_seats known, List.filter_map, ← List.flatMap_def]
  congr 1
  refine List.filter_congr fun seat here => ?_
  simp only [Function.comp_apply, firstField_entry (known seat here)]

end Pieces

/-! ## Where each user listens -/

def sessionOf (seats : List Seat) (u : Bytes) : Option (Bytes × Bytes) :=
  (seats.find? fun seat => seat.username = u).map Seat.place

theorem sessionOf_eq_none : sessionOf seats u = none ↔ ¬ ∃ seat ∈ seats, seat.username = u := by
  simp [sessionOf, List.find?_eq_none]

theorem sessionOf_snoc (fresh : sessionOf seats seat.username = none) :
    sessionOf (seats ++ [seat]) =
      Function.update (sessionOf seats) seat.username (some seat.place) := by
  funext v
  by_cases own : v = seat.username
  · subst own
    have nobody := (Option.map_eq_none_iff.mp fresh)
    rw [Function.update_self, sessionOf, List.find?_append, nobody]
    simp
  · rw [Function.update_of_ne own, sessionOf, List.find?_append, sessionOf]
    simp [Ne.symm own]

theorem sessionOf_without (seats : List Seat) (u : Bytes) :
    sessionOf (seats.filter fun seat => seat.username ≠ u) =
      Function.update (sessionOf seats) u none := by
  funext v
  by_cases own : v = u
  · subst own
    rw [Function.update_self, sessionOf_eq_none]
    simp
  · rw [Function.update_of_ne own, sessionOf, List.find?_filter, sessionOf]
    congr 2
    funext seat
    by_cases here : seat.username = v
    · simp [here, own]
    · simp [here]

theorem mem_seats_iff (distinct : (seats.map Seat.username).Nodup) :
    seat ∈ seats ↔ sessionOf seats seat.username = some seat.place := by
  rw [sessionOf, Option.map_eq_some_iff]
  constructor
  · intro member
    have there : ∃ other, seats.find? (fun other => other.username = seat.username) = some other :=
      Option.isSome_iff_exists.mp (List.find?_isSome.mpr ⟨seat, member, by simp⟩)
    obtain ⟨other, here⟩ := there
    have same := List.inj_on_of_nodup_map distinct (List.mem_of_find?_eq_some here) member
      (by simpa using List.find?_some here)
    exact ⟨other, here, congrArg Seat.place same⟩
  · rintro ⟨other, here, place⟩
    have name : other.username = seat.username := by simpa using List.find?_some here
    have same : other = seat := by
      cases other
      cases seat
      cases name
      cases place
      rfl
    exact same ▸ List.mem_of_find?_eq_some here

theorem length_seats (distinct : (seats.map Seat.username).Nodup) :
    {u | sessionOf seats u ≠ none}.ncard = seats.length := by
  have same :
      {u | sessionOf seats u ≠ none} = ((seats.map Seat.username).toFinset : Set Bytes) := by
    ext u
    simp [sessionOf_eq_none]
  rw [same, Set.ncard_coe_finset, List.toFinset_card_of_nodup distinct, List.length_map]

theorem Seated.snoc {t t' : FileTree} (seated : Seated V t seats) (known : V.Knows seat)
    (fresh : sessionOf seats seat.username = none)
    (written : table t' = some (seats.flatMap Seat.entry ++ seat.entry)) :
    Seated V t' (seats ++ [seat]) := by
  refine ⟨?_, fun other member => ?_, ?_⟩
  · rw [written, List.flatMap_append, List.flatMap_singleton]
  · rcases List.mem_append.mp member with old | new
    · exact seated.known other old
    · rw [List.mem_singleton.mp new]
      exact known
  · rw [List.map_append, List.nodup_append]
    refine ⟨seated.distinct, List.nodup_singleton _, fun name old other new => ?_⟩
    obtain ⟨earlier, member, rfl⟩ := List.mem_map.mp old
    rw [List.map_singleton, List.mem_singleton] at new
    subst new
    exact fun same => sessionOf_eq_none.mp fresh ⟨earlier, member, same⟩

theorem Seated.without {t t' : FileTree} (seated : Seated V t seats) (u : Bytes)
    (written : table t' =
      some ((seats.filter fun seat => seat.username ≠ u).flatMap Seat.entry)) :
    Seated V t' (seats.filter fun seat => seat.username ≠ u) :=
  ⟨written, fun seat member => seated.known seat (List.mem_of_mem_filter member),
    seated.distinct.sublist (List.filter_sublist.map Seat.username)⟩

end Seats

/-! ## The accounts -/

/-- What the server keeps for a user. -/
abbrev Cuenta := Account Bytes Bytes (Bytes × Bytes)

/-- The user whose account a request is about. -/
def Request.holder : Request → Bytes
  | .listContent _ usernameFolder => usernameFolder
  | request => request.username

/-- What each request does to the account it is about, and its `res`. -/
def cuentas : Keyed.Machine Bytes Request Cuenta Bytes where
  key := Request.holder
  next
    | .register _, a => a.register.2
    | .unregister _, a => a.unregister.2
    | .connect _ freePort freeServer, a => (a.connect (freeServer, freePort)).2
    | .disconnect _, a => a.disconnect.2
    | .publish _ fileName description, a => (a.publish fileName description).2
    | .delete _ fileName, a => (a.delete fileName).2
    | _, a => a
  tells
    | .register _, a => code (ascii "3") a.register.1
    | .unregister _, a => code (ascii "3") a.unregister.1
    | .connect _ freePort freeServer, a => code (ascii "2") (a.connect (freeServer, freePort)).1
    | .disconnect _, a => code (ascii "2") a.disconnect.1
    | .publish _ fileName description, a => code (ascii "3") (a.publish fileName description).1
    | .delete _ fileName, a => code (ascii "3") (a.delete fileName).1
    | .listUsers _, a => if a.files.isSome then ascii "0" else ascii "1"
    | .listContent _ _, a => if a.files.isSome then ascii "0" else ascii "Usuario no registrado\n"

def accountsFrom (m : Bytes → Cuenta) (history : History) : Bytes → Cuenta :=
  cuentas.after m (history.map Prod.fst)

/-- The directory, as the accounts have it. -/
def filesOf (m : Bytes → Cuenta) : Users := fun u => (m u).files

def sessionsOf (m : Bytes → Cuenta) (u : Bytes) : Option (Bytes × Bytes) := (m u).session

/-- The reply to a request where these are the accounts. -/
structure Told (m : Bytes → Cuenta) (event : Request × Reply) : Prop where
  res : event.2.res = cuentas.tells event.1 (m (cuentas.key event.1))
  users : ∀ username, event.1 = .listUsers username → filesOf m username ≠ none →
    event.2.res2 = some ({u | sessionsOf m u ≠ none}.ncard : Int)
  content : ∀ username usernameFolder files, event.1 = .listContent username usernameFolder →
    filesOf m usernameFolder = some files → event.2.res2 = some (Directory.fileCount files : Int)

section Files
variable {m : Bytes → Cuenta}

theorem filesOf_update (m : Bytes → Cuenta) (u : Bytes) (a : Cuenta) :
    filesOf (Function.update m u a) = Function.update (filesOf m) u a.files := by
  funext v
  by_cases own : v = u
  · subst own
    rw [filesOf, Function.update_self, Function.update_self]
  · rw [filesOf, Function.update_of_ne own, Function.update_of_ne own, filesOf]

theorem sessionsOf_update (m : Bytes → Cuenta) (u : Bytes) (a : Cuenta) :
    sessionsOf (Function.update m u a) = Function.update (sessionsOf m) u a.session := by
  funext v
  by_cases own : v = u
  · subst own
    rw [sessionsOf, Function.update_self, Function.update_self]
  · rw [sessionsOf, Function.update_of_ne own, Function.update_of_ne own, sessionsOf]

theorem filesOf_apply (m : Bytes → Cuenta) (request : Request) :
    filesOf (cuentas.apply m request) = applyRequest (filesOf m) request := by
  have same : ∀ u, (m u).files = filesOf m u := fun _ => rfl
  rw [Keyed.Machine.apply, filesOf_update]
  cases request with
  | register username => exact (Account.register_files (same username)).2
  | unregister username => exact (Account.unregister_files (same username)).2
  | connect username freePort freeServer =>
      exact (congrArg _ (Account.connect_files _)).trans (Function.update_eq_self _ _)
  | disconnect username =>
      exact (congrArg _ Account.disconnect_files).trans (Function.update_eq_self _ _)
  | publish username fileName description =>
      exact (Account.publish_files (same username) fileName description).2
  | delete username fileName => exact (Account.delete_files (same username) fileName).2
  | listUsers username => exact Function.update_eq_self _ _
  | listContent username usernameFolder => exact Function.update_eq_self _ _

theorem sessionsOf_apply {request : Request}
    (stays : ∀ username freePort freeServer, request ≠ .connect username freePort freeServer)
    (remains : ∀ username, request ≠ .disconnect username) :
    sessionsOf (cuentas.apply m request) = sessionsOf m := by
  rw [Keyed.Machine.apply, sessionsOf_update]
  refine (congrArg (Function.update (sessionsOf m) request.holder) ?_).trans
    (Function.update_eq_self request.holder (sessionsOf m))
  cases request with
  | register username => exact Account.register_session
  | unregister username => exact Account.unregister_session
  | connect username freePort freeServer => exact absurd rfl (stays _ _ _)
  | disconnect username => exact absurd rfl (remains _)
  | publish username fileName description => exact Account.publish_session _ _
  | delete username fileName => exact Account.delete_session _
  | listUsers username => rfl
  | listContent username usernameFolder => rfl

theorem accountsFrom_snoc (m : Bytes → Cuenta) (history : History) (event : Request × Reply) :
    accountsFrom m (history ++ [event]) = cuentas.apply (accountsFrom m history) event.1 := by
  rw [accountsFrom, List.map_append, List.map_singleton, Keyed.Machine.after_snoc, accountsFrom]

theorem filesOf_accountsFrom (m : Bytes → Cuenta) (history : History) :
    filesOf (accountsFrom m history) =
      history.foldl (fun users event => applyRequest users event.1) (filesOf m) := by
  induction history using List.reverseRecOn with
  | nil => rfl
  | append_singleton past event ih =>
      rw [accountsFrom_snoc, filesOf_apply, ih, List.foldl_append]
      rfl

end Files

/-! ## One request -/

/-- The store keeps these accounts. -/
structure Attends (V : Vocabulary) (s : Sys) (m : Bytes → Cuenta) : Prop where
  calm : s.faults = []
  tidy : Tidy s.tree
  represents : Represents s.tree (filesOf m)
  seated : ∃ seats, Seated V s.tree seats ∧ sessionOf seats = sessionsOf m

section Steps
variable {V : Vocabulary} {s s' : Sys} {m : Bytes → Cuenta} {seats : List Seat} {seat : Seat}
  {u : Bytes}

theorem Seated.unchanged {t t' : FileTree} (seated : Seated V t seats) (same : table t' = table t) :
    Seated V t' seats := ⟨same.trans seated.written, seated.known, seated.distinct⟩

theorem listed_iff (sessions : sessionOf seats = sessionsOf m) :
    (∃ seat ∈ seats, seat.username = u) ↔ (m u).session ≠ none := by
  rw [← not_iff_not, ← sessionOf_eq_none, sessions, not_not, sessionsOf]

theorem connect_attended (calm : s.faults = []) (rep : Represents s.tree (filesOf m))
    (tidy : Tidy s.tree) (seated : Seated V s.tree seats)
    (sessions : sessionOf seats = sessionsOf m) (known : V.Knows seat)
    (proper : ProperName seat.username) (short : seat.username.length < 244) :
    ∃ s', (connectServ seat.username seat.freePort seat.freeServer).run s =
        .ok (code (ascii "2") ((m seat.username).connect seat.place).1) s' ∧
      ∃ later, Seated V s'.tree later ∧ sessionOf later = Function.update (sessionsOf m)
        seat.username ((m seat.username).connect seat.place).2.session := by
  have access := access_user rep proper
  have same := (Function.update_eq_self seat.username (sessionsOf m)).symm
  cases files : (m seat.username).files with
  | none =>
      have ran := run_connectServ calm seat.username seat.freePort seat.freeServer
      rw [if_neg (by omega), access, filesOf, files] at ran
      rw [Account.connect, files]
      exact ⟨s, ran, seats, seated, sessions.trans same⟩
  | some _ =>
      rw [filesOf, files] at access
      obtain ⟨_, _, handles, ran⟩ :=
        run_connectServ_table access seated.written seat.freePort seat.freeServer
      have fit := scanWords_ne_none.mp (wordsFit_of_short (tidy.words _ seated.written)
        (show 100 ≤ 256 by omega) : scanWords 256 seat.username _ ≠ none)
      rw [if_neg (by omega), show s.fails 0 = false by simp [Sys.fails, calm],
        scanWords_of_fit (tidy.clean _ seated.written) fit] at ran
      have met := mem_words_seats known.user seated.known
      rw [listed_iff sessions] at met
      rw [Account.connect, files]
      cases session : (m seat.username).session with
      | some place =>
          rw [decide_eq_true (met.mpr (by rw [session]; simp))] at ran
          exact ⟨_, ran, seats, seated.unchanged rfl, sessions.trans same⟩
      | none =>
          rw [decide_eq_false (mt met.mp (by rw [session]; simp))] at ran
          have fresh : sessionOf seats seat.username = none := by rw [sessions, sessionsOf, session]
          exact ⟨_, ran, seats ++ [seat], seated.snoc known fresh (table_append seated.written _),
            by rw [sessionOf_snoc fresh, sessions]⟩

theorem disconnect_attended (calm : s.faults = []) (rep : Represents s.tree (filesOf m))
    (tidy : Tidy s.tree) (seated : Seated V s.tree seats)
    (sessions : sessionOf seats = sessionsOf m)
    (user : u ∈ V.users) (proper : ProperName u) (short : u.length < 244) :
    ∃ s', (disconnectServ u).run s = .ok (code (ascii "2") (m u).disconnect.1) s' ∧
      ∃ later, Seated V s'.tree later ∧
        sessionOf later = Function.update (sessionsOf m) u (m u).disconnect.2.session := by
  have access := access_user rep proper
  have same := (Function.update_eq_self u (sessionsOf m)).symm
  have update :
      s.tree.openUpdate conectadosTxt = some (tablePath s.tree, seats.flatMap Seat.entry) :=
    openUpdate_table.mpr ⟨rep.rooted, rfl, seated.written⟩
  obtain ⟨_, created⟩ := openWrite_temp_exists rep.rooted (usuarios_dir rep) rep.tempFree
  cases files : (m u).files with
  | none =>
      rw [filesOf, files, access_name rep.rooted proper.1] at access
      have absent : (withTemp s.tree).access (folderOf u) = false := by
        rw [Bool.eq_false_iff]
        intro there
        have inside := access_proper proper there
        obtain ⟨cwd, node⟩ := withTemp_others (child_ne_temp (t := s.tree) proper)
        rw [usuarios_congr cwd, node] at inside
        exact inside (Option.not_isSome_iff_eq_none.mp (by rw [access]; simp))
      obtain ⟨handles, ran⟩ := (run_disconnectServ_absent calm short absent).2 _ update
      obtain ⟨cwd, node⟩ := withTemp_others (tempPath_ne_tablePath s.tree).symm
      rw [Account.disconnect, files]
      exact ⟨_, ran, seats, seated.unchanged (table_of_node_eq cwd node), sessions.trans same⟩
  | some _ =>
      rw [filesOf, files] at access
      obtain ⟨t', handles, ran, swapped⟩ :=
        run_disconnectServ calm short (access_withTemp access) update created
      have clean := tidy.clean _ seated.written
      have lengths := (tidy.words _ seated.written).short
      have met := matchesSome_seats lengths clean user seated.known
      rw [listed_iff sessions] at met
      have written : table t' =
          some ((seats.filter fun seat => seat.username ≠ u).flatMap Seat.entry) := by
        rw [← kept_seats lengths clean user seated.known]
        exact table_of_node_file swapped.cwd swapped.tableKept
      have later : sessionOf (seats.filter fun seat => seat.username ≠ u) =
          Function.update (sessionsOf m) u none := by
        rw [sessionOf_without, sessions]
      rw [Account.disconnect, files]
      cases session : (m u).session with
      | none =>
          rw [if_neg (mt met.mp (by rw [session]; simp))] at ran
          refine ⟨_, ran, _, seated.without u written, later.trans ?_⟩
          exact congrArg (Function.update (sessionsOf m) u) session.symm
      | some place =>
          rw [if_pos (met.mpr (by rw [session]; simp))] at ran
          exact ⟨_, ran, _, seated.without u written, later⟩

theorem table_quiet {t t' : FileTree} {event : Request × Reply} (served : Serves t event t')
    (there : table t' ≠ none)
    (connects : ∀ username freePort freeServer,
      event.1 ≠ .connect username freePort freeServer)
    (disconnects : ∀ username, event.1 ≠ .disconnect username) : table t' = table t := by
  rcases outcome_table (serves_outcome served) with same | gone | ⟨u, p, h, _, request, _⟩ |
    ⟨u, _, request, _⟩
  · exact same
  · exact absurd gone there
  · exact absurd request (connects u p h)
  · exact absurd request (disconnects u)

theorem listUsers_told (calm : s.faults = []) (rep : Represents s.tree (filesOf m))
    (tidy : Tidy s.tree) (seated : Seated V s.tree seats)
    (sessions : sessionOf seats = sessionsOf m)
    (proper : ProperName u) (short : u.length < 8) :
    ∃ reply s', (serve (.listUsers u)).run s = .ok reply s' ∧ Told m (.listUsers u, reply) := by
  have access := access_user rep proper
  have lines := pieces_seats (tidy.words _ seated.written).short seated.known
  have ran : (serve (.listUsers u)).run s = _ := EStateM.run_bind (listUsersServ u) _
  rw [run_listUsersServ calm, if_neg proper.1.1, if_neg (by omega), access] at ran
  cases files : filesOf m u with
  | none =>
      rw [files] at ran
      refine ⟨_, _, ran, ?_, fun v same registered => ?_, fun v w held same => by cases same⟩
      · change ascii "1" = if (m u).files.isSome then _ else _
        rw [show (m u).files = none from files]
        rfl
      · cases same
        exact absurd files registered
  | some held =>
      obtain ⟨text, here, read⟩ := openRead_table rep
      rw [seated.written] at here
      cases here
      rw [files, read] at ran
      refine ⟨_, _, ran, ?_, fun v same _ => ?_, fun v w held same => by cases same⟩
      · change ascii "0" = if (m u).files.isSome then _ else _
        rw [show (m u).files = some held from files]
        rfl
      · change some ((pieces 256 _).length : Int) = _
        rw [lines, List.length_map, ← sessions, length_seats seated.distinct]

theorem listContent_told (calm : s.faults = []) (rep : Represents s.tree (filesOf m))
    {username : Bytes} (proper : ProperName u) (short : u.length < 38) :
    ∃ reply s', (serve (.listContent username u)).run s = .ok reply s' ∧
      reply.res = if (filesOf m u).isSome then ascii "0"
        else ascii "Usuario no registrado\n" := by
  have ran : (serve (.listContent username u)).run s = _ :=
    EStateM.run_bind (listContentServ username u) _
  rw [run_listContentServ calm, if_neg (by omega), opendir_name rep.rooted proper.1] at ran
  have stored := rep.stored u proper
  cases files : filesOf m u with
  | none =>
      rw [files] at stored
      rw [show s.tree.node (usuarios s.tree ++ [u]) = none from stored] at ran
      exact ⟨_, _, ran, rfl⟩
  | some held =>
      rw [files] at stored
      rw [stored.1, if_pos rfl] at ran
      exact ⟨_, _, ran, rfl⟩

theorem Attends.quiet (attends : Attends V s m) {request : Request} {reply : Reply}
    (served : Serves s.tree (request, reply) s'.tree) (calm' : s'.faults = [])
    (tidy' : Tidy s'.tree) (rep' : Represents s'.tree (filesOf (cuentas.apply m request)))
    (stays : ∀ username freePort freeServer, request ≠ .connect username freePort freeServer)
    (remains : ∀ username, request ≠ .disconnect username) :
    Attends V s' (cuentas.apply m request) := by
  obtain ⟨_, _, _, seats, seated, sessions⟩ := attends
  have there : table s'.tree ≠ none := by
    obtain ⟨text, here⟩ := rep'.tableThere
    rw [here]
    exact Option.some_ne_none text
  exact ⟨calm', tidy', rep', seats, seated.unchanged (table_quiet served there stays remains),
    by rw [sessionsOf_apply stays remains, sessions]⟩

/-- A request whose names are known is answered from the account it is about,
and the store keeps the accounts that it leaves. -/
theorem Attends.step (attends : Attends V s m) {request : Request} {reply : Reply}
    (deliverable : request.Deliverable) (moderate : Moderate request) (speaks : V.Speaks request)
    (ran : (serve request).run s = .ok reply s') :
    Attends V s' (cuentas.apply m request) ∧ Told m (request, reply) := by
  have before := attends
  obtain ⟨calm, tidy, rep, seats, seated, sessions⟩ := attends
  have served : Serves s.tree (request, reply) s'.tree := ⟨deliverable, s, s', rfl, ran, rfl⟩
  obtain ⟨reply', s'', ran', calm', answers, rep'⟩ :=
    simulates calm rep (fits_of_tidy tidy moderate)
  rw [ran] at ran'
  cases ran'
  rw [← filesOf_apply] at rep'
  have tidy' := tidy_step tidy served moderate
  have same : ∀ u, (m u).files = filesOf m u := fun _ => rfl
  have unseated := before.quiet served calm' tidy' rep'
  have attended : ∀ {later : List Seat}, Seated V s'.tree later →
      sessionOf later = Function.update (sessionsOf m) request.holder
        (cuentas.next request (m request.holder)).session →
      Attends V s' (cuentas.apply m request) := by
    intro later now held
    refine ⟨calm', tidy', rep', later, now, ?_⟩
    rw [held, Keyed.Machine.apply, sessionsOf_update]
    rfl
  cases request with
  | register username =>
      refine ⟨unseated (by simp) (by simp), ?_, by simp, by simp⟩
      rw [answers, ← (Account.register_files (same username)).1]
      rfl
  | unregister username =>
      refine ⟨unseated (by simp) (by simp), ?_, by simp, by simp⟩
      rw [answers, ← (Account.unregister_files (same username)).1]
      rfl
  | publish username fileName description =>
      refine ⟨unseated (by simp) (by simp), ?_, by simp, by simp⟩
      rw [answers, ← (Account.publish_files (same username) fileName description).1]
      rfl
  | delete username fileName =>
      refine ⟨unseated (by simp) (by simp), ?_, by simp, by simp⟩
      rw [answers, ← (Account.delete_files (same username) fileName).1]
      rfl
  | connect username freePort freeServer =>
      have known : V.Knows ⟨username, freeServer, freePort⟩ := ⟨speaks.1, speaks.2, deliverable⟩
      obtain ⟨later, ran', after, now, held⟩ := connect_attended calm rep tidy seated sessions known
        moderate.1.1 moderate.1.2
      rw [show (serve (.connect username freePort freeServer)).run s = _ from run_answer_ok ran']
        at ran
      cases ran
      exact ⟨attended now held, rfl, by simp, by simp⟩
  | disconnect username =>
      obtain ⟨later, ran', after, now, held⟩ := disconnect_attended calm rep tidy seated sessions
        speaks moderate.1.1 moderate.1.2
      rw [show (serve (.disconnect username)).run s = _ from run_answer_ok ran'] at ran
      cases ran
      exact ⟨attended now held, rfl, by simp, by simp⟩
  | listUsers username =>
      obtain ⟨reply', later, ran', told⟩ :=
        listUsers_told calm rep tidy seated sessions moderate.1.1 moderate.1.2
      rw [ran] at ran'
      cases ran'
      exact ⟨unseated (by simp) (by simp), told⟩
  | listContent username usernameFolder =>
      obtain ⟨reply', later, ran', res⟩ := listContent_told calm rep moderate.1.1 moderate.1.2
      rw [ran] at ran'
      cases ran'
      refine ⟨unseated (by simp) (by simp), res, by simp, ?_⟩
      intro v folder files here held
      cases here
      exact (answers files held).2

end Steps

end DistrApp.Server
