import DistrApp.Client.Lookup
import DistrApp.Server.Accounts

/-!
# What LIST_USERS tells under every schedule

Between the threads of the server and the dictionary of a client: whatever the
order in which the requests of all users are served, the client that asks for
the list knows afterwards where each user listens whose last accepted request of
the two was a CONNECT, and nobody else.
-/

set_option autoImplicit false

namespace DistrApp.Client

open Text FileTree Effects Server

def Member.seat (m : Member) : Seat :=
  ⟨encode m.user, encode m.sockname.host, encode (toString m.sockname.port)⟩

/-- The names are those of clients, and the places are addresses of their sockets. -/
def OfClients (V : Vocabulary) : Prop :=
  ∀ seat, V.Knows seat → ∃ m : Member, m.seat = seat

def placeBytes (place : String × Int) : Bytes × Bytes :=
  (encode place.1, encode (toString place.2))

section Members
variable {V : Vocabulary} {seats : List Seat} {members : List Member}

theorem members_of_seats (clients : OfClients V) (known : ∀ seat ∈ seats, V.Knows seat) :
    ∃ members : List Member, members.map Member.seat = seats := by
  induction seats with
  | nil => exact ⟨[], rfl⟩
  | cons seat rest ih =>
      obtain ⟨members, same⟩ := ih fun other inside => known other (List.mem_cons_of_mem _ inside)
      obtain ⟨m, here⟩ := clients seat (known seat List.mem_cons_self)
      exact ⟨m :: members, by rw [List.map_cons, here, same]⟩

theorem flatMap_seats (members : List Member) :
    (members.map Member.seat).flatMap Seat.entry = members.flatMap Member.entry :=
  List.flatMap_map _ _ _

theorem distinct_members (distinct : ((members.map Member.seat).map Seat.username).Nodup) :
    (members.map Member.user).Nodup := by
  rw [List.map_map] at distinct
  refine List.Nodup.of_map encode ?_
  rw [List.map_map]
  exact distinct

theorem sessionOf_members (members : List Member) (name : String) :
    sessionOf (members.map Member.seat) (encode name) = (usersOf members name).map placeBytes := by
  rw [sessionOf, usersOf, List.find?_map, Option.map_map, Option.map_map]
  have names : ((fun seat : Seat => decide (seat.username = encode name)) ∘ Member.seat) =
      fun m => decide (m.user = name) := by
    funext m
    exact decide_eq_decide.mpr ⟨fun same => encode_injective same, fun same => same ▸ rfl⟩
  rw [names]
  rfl

end Members

section Listing
variable {V : Vocabulary} {peers : AcceptLoop.Descriptor → Concurrent.Peer} {s start : Sys}
  {state : Concurrent.State} {m : Bytes → Cuenta} {key : Concurrent.Key} {requester : String}
  {fecha : Bytes} {k : Nat}

/-- The request of a client whose acknowledgements arrive. -/
def AsksForUsers (peer : Concurrent.Peer) (requester : String) (fecha : Bytes) (k : Nat) : Prop :=
  Server.Asked peer.env .listUsers [encode requester] fecha (acks k) peer.input peer.writes

theorem alone_listUsers (attends : Attends V s m) (fits : Moderate (.listUsers (encode requester)))
    (registered : filesOf m (encode requester) ≠ none)
    (asks : AsksForUsers (peers key.2) requester fecha k) :
    ∃ seats c, Seated V s.tree seats ∧ sessionOf seats = sessionsOf m ∧
      (Concurrent.sections peers).alone key s = .ok () c ∧
      c.sent = usersMessages (seats.flatMap Seat.entry) := by
  obtain ⟨calm, tidy, rep, seats, seated, sessions⟩ := attends
  have access := access_user rep fits.1.1
  rw [Option.isSome_iff_ne_none.mpr registered] at access
  have opened :
      s.tree.openRead conectadosTxt = some (tablePath s.tree, seats.flatMap Seat.entry) := by
    obtain ⟨text, here, opened⟩ := openRead_table rep
    rw [seated.written] at here
    cases here
    exact opened
  have short := fits.1.2
  have ran := run_listUsersServ calm (encode requester)
  rw [if_neg fits.1.1.1.1, if_neg (by omega), access, opened] at ran
  have served : ∃ s', s'.tree = s.tree ∧ s'.faults = [] ∧
      (serve (Operacion.listUsers.request [encode requester])).run s =
        .ok ⟨ascii "0", some (pieces 256 (seats.flatMap Seat.entry)).length, none⟩ s' := by
    refine ⟨{ s with handles := s.handles ++ [HandleEvent.opened s.handles.length] ++
      [HandleEvent.closed s.handles.length] }, rfl, calm, ?_⟩
    show (serve (.listUsers (encode requester))).run s = _
    rw [serve, EStateM.run_bind, ran]
    rfl
  obtain ⟨s', tree, calm', served⟩ := served
  rw [← tree] at opened
  obtain ⟨c, talking, body⟩ := Server.Asked.run asks served calm' rfl
  obtain ⟨c', listed, after⟩ := gives_listarUsuarios opened (lineas_acks _ k) c talking
  exact ⟨seats, c', seated, sessions, body.trans listed, after.sent⟩

theorem listUsersAfter_seats (clients : OfClients V) (listUsers : ListUsers) {t : FileTree}
    {seats : List Seat} (seated : Seated V t seats) (tidy : Tidy t) (name : String) :
    sessionOf seats (encode name) =
      (listUsersAfter listUsers (usersMessages (seats.flatMap Seat.entry)) name).map
        placeBytes := by
  obtain ⟨members, rfl⟩ := members_of_seats clients seated.known
  have short := (tidy.words _ seated.written).short
  have fit : LinesFit members := by
    have each : ∀ m ∈ members, m.entry.length ≤ 255 := by
      intro m member
      refine short _ ?_
      rw [lines_seats seated.known]
      exact List.mem_map_of_mem (List.mem_map_of_mem member)
    exact ⟨fun m member => each m (List.mem_of_mem_dropLast member), fun m member =>
      (each m (List.mem_of_getLast? member)).trans (by omega)⟩
  rw [flatMap_seats, listUsersAfter_usersMessages,
    (noteMessages_eq_usersOf_iff (distinct_members seated.distinct)).mpr fit, sessionOf_members]

end Listing

theorem ofClients_anaAndBob : OfClients anaAndBob := by
  rintro ⟨username, freeServer, freePort⟩ ⟨user, place, _⟩
  have place : (freeServer, freePort) = (ascii "10.0.0.1", ascii "4001") ∨
      (freeServer, freePort) = (ascii "10.0.0.2", ascii "4002") := place
  rcases place with here | here <;> cases here
  · rcases user with rfl | rfl
    · exact ⟨anaListens, by decide +kernel⟩
    · exact ⟨⟨"bob", anaListens.sockname, by decide⟩, by decide +kernel⟩
  · rcases user with rfl | rfl
    · exact ⟨⟨"ana", bobListens.sockname, by decide⟩, by decide +kernel⟩
    · exact ⟨bobListens, by decide +kernel⟩

theorem asksForUsers_ana :
    AsksForUsers (Concurrent.scripted Concurrent.anaScript ⟨5, 5⟩) "ana" (ascii "10:05") 3 :=
  ⟨rfl, rfl, rfl, by decide, by decide, delivers_reads _⟩

end DistrApp.Client
