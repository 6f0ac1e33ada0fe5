import DistrApp.Library.Holders
import DistrApp.Server.Accounts

/-!
# What LIST_CONTENT tells under every schedule

After its reply and the count, the listing of a user is one line for each file
that has been published and not deleted since, in the order of `readdir`, each
with the description it was published with.
-/

set_option autoImplicit false

namespace DistrApp.Server

open Text FileTree Effects Holders

/-- The published files with their descriptions, each file once. -/
structure Catalog (published : Bytes → Option Bytes) (listed : List (Bytes × Bytes)) : Prop where
  all : ∀ f text, (f, text) ∈ listed ↔ published f = some text
  once : (listed.map Prod.fst).Nodup

/-- The line for a file: its name, and what one `fgets` reads from it. -/
def listedAs (file : Bytes × Bytes) : Bytes :=
  file.1 ++ ascii ".txt" ++ ascii "  " ++ (file.2 ++ [newline]).take 255 ++ [0]

section Folders
variable {t : FileTree} {u : Bytes} {published : Bytes → Option Bytes}
  {listed : List (Bytes × Bytes)}

theorem Catalog.length (catalog : Catalog published listed) :
    Directory.fileCount published = listed.length := by
  have all : ∀ f, f ∈ listed.map Prod.fst ↔ published f ≠ none := by
    intro f
    rw [List.mem_map, Option.ne_none_iff_exists']
    constructor
    · rintro ⟨⟨g, text⟩, member, rfl⟩
      exact ⟨text, (catalog.all _ _).mp member⟩
    · rintro ⟨text, here⟩
      exact ⟨(f, text), (catalog.all _ _).mpr here, rfl⟩
  rw [Directory.fileCount_eq_length catalog.once all, List.length_map]

theorem sublist_files (entries : List (Name × Node)) :
    ((files entries).map Prod.fst).Sublist (entries.map Prod.fst) := by
  induction entries with
  | nil => exact List.Sublist.refl _
  | cons entry rest ih =>
      obtain ⟨dName, _ | content⟩ := entry
      · exact ih.cons dName
      · exact ih.cons_cons dName

theorem exists_listed (found : List (Name × Bytes)) (named : ∀ file ∈ found, ∃ f text,
      file = (f ++ ascii ".txt", text ++ [newline])) : ∃ listed : List (Bytes × Bytes),
    found = listed.map fun file => (file.1 ++ ascii ".txt", file.2 ++ [newline]) := by
  induction found with
  | nil => exact ⟨[], rfl⟩
  | cons file rest ih =>
      obtain ⟨listed, same⟩ := ih fun other member => named other (List.mem_cons_of_mem _ member)
      obtain ⟨f, text, here⟩ := named file List.mem_cons_self
      exact ⟨(f, text) :: listed, by rw [List.map_cons, ← same, here]⟩

theorem stored_injective : Function.Injective fun file : Bytes × Bytes =>
    (file.1 ++ ascii ".txt", file.2 ++ [newline]) := by
  rintro ⟨f, text⟩ ⟨g, other⟩ same
  obtain ⟨names, texts⟩ := Prod.mk.inj same
  exact Prod.ext (List.append_cancel_right names) (List.append_cancel_right texts)

theorem catalog_of_folder (holds : FolderHolds t u published) : ∃ listed, Catalog published listed ∧
    files (t.entries (usuarios t ++ [u])) =
      listed.map fun file => (file.1 ++ ascii ".txt", file.2 ++ [newline]) := by
  have mem_iff : ∀ name content, (name, content) ∈ files (t.entries (usuarios t ++ [u])) ↔
      ∃ f text, name = f ++ ascii ".txt" ∧ published f = some text ∧
        content = text ++ [newline] := by
    intro name content
    rw [mem_files, mem_entries, child_append, holds]
    simp only [Node.file.injEq]
  obtain ⟨listed, same⟩ := exists_listed (files (t.entries (usuarios t ++ [u]))) (by
    rintro ⟨name, content⟩ member
    obtain ⟨f, text, rfl, -, rfl⟩ := (mem_iff _ _).mp member
    exact ⟨f, text, rfl⟩)
  refine ⟨listed, ⟨fun f text => ?_, ?_⟩, same⟩
  · have image := List.mem_map_of_injective (a := (f, text)) (l := listed) stored_injective
    rw [← same, mem_iff] at image
    rw [← image]
    constructor
    · rintro ⟨g, other, names, here, texts⟩
      obtain rfl : f = g := List.append_cancel_right names
      obtain rfl : text = other := List.append_cancel_right texts
      exact here
    · exact fun here => ⟨f, text, rfl, here, rfl⟩
  · have names := (entries_names_nodup t (usuarios t ++ [u])).sublist (sublist_files _)
    rw [same, List.map_map] at names
    refine List.Nodup.of_map (fun f : Bytes => f ++ ascii ".txt") ?_
    rwa [List.map_map]

theorem fileMessage_listedAs {f text : Bytes} (clean : Clean text) (short : f.length < 83) :
    fileMessage (f ++ ascii ".txt") (text ++ [newline]) = listedAs (f, text) := by
  have ending : (ascii ".txt").length = 4 := by decide
  have first : firstLine (text ++ [newline]) = (text ++ [newline]).take 255 := by
    rw [firstLine, lines_single clean.2, List.headD_cons]
  rw [fileMessage_eq_record.mpr, record, first, listedAs]
  rw [first, List.length_append, ending]
  refine ⟨fun member => ?_, ?_⟩
  · rcases List.mem_append.mp (List.mem_of_mem_take member) with own | nul
    · exact clean.1 own
    · exact absurd (List.mem_singleton.mp nul) (by decide)
  · have taken := List.length_take_le 255 (text ++ [newline])
    omega

end Folders

/-! ## The texts that have been published -/

theorem applyRequest_text {m : Users} {request : Request} {u f text : Bytes}
    {published : Bytes → Option Bytes} (here : applyRequest m request u = some published)
    (found : published f = some text) :
    (∃ before, m u = some before ∧ before f = some text) ∨ request = .publish u f text := by
  have kept : m u = some published → ∃ before, m u = some before ∧ before f = some text :=
    fun same => ⟨published, same, found⟩
  cases request with
  | register username =>
      rw [applyRequest, Directory.register] at here
      split at here
      · rcases update_eq_some.mp here with ⟨rfl, same⟩ | ⟨_, before⟩
        · cases same
          cases found
        · exact Or.inl (kept before)
      · exact Or.inl (kept here)
  | unregister username =>
      rw [applyRequest, Directory.unregister] at here
      split at here
      · exact Or.inl (kept here)
      · rcases update_eq_some.mp here with ⟨rfl, same⟩ | ⟨_, before⟩
        · cases same
        · exact Or.inl (kept before)
  | publish username fileName description =>
      rw [applyRequest, Directory.publish] at here
      split at here
      · exact Or.inl (kept here)
      · rename_i before held
        split at here
        · rcases update_eq_some.mp here with ⟨rfl, same⟩ | ⟨_, other⟩
          · cases same
            rcases update_eq_some.mp found with ⟨rfl, new⟩ | ⟨_, old⟩
            · cases new
              exact Or.inr rfl
            · exact Or.inl ⟨before, held, old⟩
          · exact Or.inl (kept other)
        · exact Or.inl (kept here)
  | delete username fileName =>
      rw [applyRequest, Directory.delete] at here
      split at here
      · exact Or.inl (kept here)
      · rename_i before held
        split at here
        · exact Or.inl (kept here)
        · rcases update_eq_some.mp here with ⟨rfl, same⟩ | ⟨_, other⟩
          · cases same
            rcases update_eq_some.mp found with ⟨_, absurdity⟩ | ⟨_, old⟩
            · cases absurdity
            · exact Or.inl ⟨before, held, old⟩
          · exact Or.inl (kept other)
  | connect username freePort freeServer => exact Or.inl (kept here)
  | disconnect username => exact Or.inl (kept here)
  | listUsers username => exact Or.inl (kept here)
  | listContent username usernameFolder => exact Or.inl (kept here)

theorem texts_clean {history : History} (deliverable : ∀ event ∈ history, event.1.Deliverable)
    {u f text : Bytes} {published : Bytes → Option Bytes}
    (here : filesOf (accountsFrom nobody history) u = some published)
    (found : published f = some text) : Clean text := by
  induction history using List.reverseRecOn generalizing published with
  | nil => cases here
  | append_singleton past event ih =>
      rw [accountsFrom_snoc, filesOf_apply] at here
      rcases applyRequest_text here found with ⟨before, held, old⟩ | request
      · exact ih (fun other member => deliverable other (List.mem_append_left _ member)) held old
      · have last := deliverable event (List.mem_append_right _ (List.mem_singleton.mpr rfl))
        rw [request] at last
        exact last text (by simp [Request.fields, Request.others])

/-! ## The listing of a user -/

section Listing
variable {V : Vocabulary} {peers : AcceptLoop.Descriptor → Concurrent.Peer} {s start : Sys}
  {state : Concurrent.State} {m : Bytes → Cuenta} {key : Concurrent.Key}
  {requester u fecha acknowledgements : Bytes} {published : Bytes → Option Bytes}

theorem alone_listContent (attends : Attends V s m) (fits : Moderate (.listContent requester u))
    (held : filesOf m u = some published) (few : Directory.fileCount published ≤ 255)
    (clean : ∀ f text, published f = some text → Clean text)
    (asks : Asked (peers key.2).env .listContent [requester, u] fecha acknowledgements
      (peers key.2).input (peers key.2).writes)
    (short : (beforeEnd acknowledgements).length < 256) :
    ∃ listed c, Catalog published listed ∧ (Concurrent.sections peers).alone key s = .ok () c ∧
      c.sent = (ascii "0" ++ [0]) :: countMessage listed.length :: listed.map listedAs := by
  obtain ⟨calm, tidy, rep, _⟩ := attends
  have stored := rep.stored u fits.1.1
  rw [held] at stored
  obtain ⟨dir, holds, named⟩ := stored
  obtain ⟨listed, catalog, same⟩ := catalog_of_folder holds
  have opens : s.tree.opendir (folderOf u) = some (s.tree.entries (usuarios s.tree ++ [u])) := by
    rw [opendir_name rep.rooted fits.1.1.1, if_pos dir]
  have count :
      (regularEntries (s.tree.entries (usuarios s.tree ++ [u]))).length = listed.length := by
    rw [← length_files, same, List.length_map]
  have lengths : ∀ file ∈ listed, u.length + file.1.length < 83 := by
    rintro ⟨f, text⟩ member
    exact named f (by rw [(catalog.all f text).mp member]; simp)
  have listable : ∀ e ∈ s.tree.entries (usuarios s.tree ++ [u]), Listable (folderOf u) e := by
    have fit : ∀ file ∈ files (s.tree.entries (usuarios s.tree ++ [u])),
        file.2 ≠ [] ∧ 13 + u.length + file.1.length < 1024 := by
      intro file member
      rw [same] at member
      obtain ⟨stored, here, rfl⟩ := List.mem_map.mp member
      have length := lengths stored here
      have ending : (ascii ".txt").length = 4 := by decide
      simp only [List.length_append, ending]
      exact ⟨by simp, by omega⟩
    exact listable_of_files (fun file member => (fit file member).1) fun file member =>
      (fit file member).2
  obtain ⟨s', tree, calm', ran⟩ := @run_listContent s requester u _ calm opens fits.1.2
  have folder : Folder s'.tree u (s.tree.entries (usuarios s.tree ++ [u])) :=
    ⟨fits.1.2, by rw [tree, opens]⟩
  obtain ⟨c, talking, body⟩ := asks.run ran calm' rfl
  have gives : Gives (Talking s'.tree acknowledgements [ascii "0" ++ [0]])
      (listarContenido (peers key.2).env (contentReply u (s.tree.entries (usuarios s.tree ++ [u]))))
      () _ :=
    Gives.bind (gives_leerCampo short) (gives_enviarContenido (peers key.2).env folder
      (by rw [count, ← catalog.length]; exact few) listable)
  obtain ⟨c', sends, after⟩ := gives c talking
  refine ⟨listed, c', catalog, body.trans sends, ?_⟩
  rw [after.sent, count, fileMessages_eq, same, List.map_map]
  refine congrArg (fun lines => (ascii "0" ++ [0]) :: countMessage listed.length :: lines) ?_
  refine List.map_congr_left ?_
  rintro ⟨f, text⟩ member
  have length : u.length + f.length < 83 := lengths _ member
  refine fileMessage_listedAs (clean f text ((catalog.all f text).mp member)) ?_
  show f.length < 83
  omega

/-- On every schedule a LIST_CONTENT of a user with at most 255 files is answered by
the files that the requests before it, in the order of `accept`, have left. -/
theorem schedule_tells_content (reached : Concurrent.Reachable peers start state)
    (bare : EmptyStore start.tree) (calm : start.faults = [])
    (understood : ∀ e ∈ state.pool.ended, ∀ r ∈ (stopped e.2).served, Understood V r)
    {before after : List (Concurrent.Key × EStateM.Result Stop Conn Unit)}
    {result : EStateM.Result Stop Conn Unit}
    (split : state.pool.ended = before ++ (key, result) :: after)
    (fits : Moderate (.listContent requester u))
    (asks : Asked (peers key.2).env .listContent [requester, u] fecha acknowledgements
      (peers key.2).input (peers key.2).writes)
    (short : (beforeEnd acknowledgements).length < 256) :
    ∃ events middle, Episodes start before events middle ∧
      ∀ published, filesOf (accountsFrom nobody events.reduceOption) u = some published →
        Directory.fileCount published ≤ 255 →
        ∃ listed c, Catalog published listed ∧ result = .ok () c ∧
          c.sent = (ascii "0" ++ [0]) :: countMessage listed.length :: listed.map listedAs := by
  obtain ⟨events, middle, episodes, attends, rfl⟩ :=
    attends_before reached bare calm understood split
  refine ⟨events, middle, episodes, fun published held few => ?_⟩
  exact alone_listContent attends fits held few
    (fun f text found => texts_clean episodes.deliverable held found) asks short

end Listing

/-! ## Two published files, and another user's -/

def notesScript : List Bytes :=
  [ascii "REGISTER\x00ana\x0010:00\x00", ascii "REGISTER\x00bob\x0010:01\x00",
    ascii "PUBLISH\x00ana\x00notes\x00first\x0010:02\x00",
    ascii "PUBLISH\x00bob\x00song\x00second\x0010:03\x00",
    ascii "PUBLISH\x00ana\x00draft\x00third\x0010:04\x00",
    ascii "LIST_CONTENT\x00bob\x00ana\x0010:05\x00OK\x00"]

def notesRequests : List Request :=
  [.register (ascii "ana"), .register (ascii "bob"),
    .publish (ascii "ana") (ascii "notes") (ascii "first"),
    .publish (ascii "bob") (ascii "song") (ascii "second"),
    .publish (ascii "ana") (ascii "draft") (ascii "third"),
    .listContent (ascii "bob") (ascii "ana")]

theorem plays_notes : Concurrent.Plays notesScript notesRequests ⟨firstStart, [], []⟩ := by
  decide +kernel

theorem understood_notesRequests : ∀ r ∈ notesRequests, Understood anaAndBob r := by
  have other : ∀ {r : Request}, (∀ u p h, r ≠ .connect u p h) → NamesFit r → Moderate r :=
    fun no_connect names => ⟨names, fun u p h same => absurd same (no_connect u p h)⟩
  intro r member
  simp only [notesRequests, List.mem_cons, List.not_mem_nil, or_false] at member
  rcases member with rfl | rfl | rfl | rfl | rfl | rfl
  · exact ⟨other (by simp) ⟨by decide, by decide⟩, trivial⟩
  · exact ⟨other (by simp) ⟨by decide, by decide⟩, trivial⟩
  · exact ⟨other (by simp) ⟨by decide, ⟨by decide, by decide, by decide⟩, by decide, by decide⟩,
      trivial⟩
  · exact ⟨other (by simp) ⟨by decide, ⟨by decide, by decide, by decide⟩, by decide, by decide⟩,
      trivial⟩
  · exact ⟨other (by simp) ⟨by decide, ⟨by decide, by decide, by decide⟩, by decide, by decide⟩,
      trivial⟩
  · exact ⟨other (by simp) ⟨by decide, by decide⟩, trivial⟩

theorem schedule_tells_content_ana : ∃ s : Concurrent.State, ∃ before result events middle,
    s.pool.ended = before ++ [((5, ⟨5, 5⟩), result)] ∧
      Episodes ⟨firstStart, [], []⟩ before events middle ∧
      ∀ published,
        filesOf (accountsFrom nobody events.reduceOption) (ascii "ana") = some published →
        Directory.fileCount published ≤ 255 →
        ∃ listed c, Catalog published listed ∧ result = .ok () c ∧
          c.sent = (ascii "0" ++ [0]) :: countMessage listed.length :: listed.map listedAs := by
  obtain ⟨s, reached, _, ended⟩ := plays_notes.reached
  have last : ∃ before result, Concurrent.scriptTurns notesScript ⟨firstStart, [], []⟩ =
      before ++ [((5, ⟨5, 5⟩), result)] := ⟨[_, _, _, _, _], _, rfl⟩
  obtain ⟨before, result, split⟩ := last
  have understood : ∀ e ∈ s.pool.ended, ∀ r ∈ (stopped e.2).served, Understood anaAndBob r := by
    rw [ended]
    exact plays_notes.each understood_notesRequests
  obtain ⟨events, middle, episodes, told⟩ := schedule_tells_content reached emptyStore_firstStart
    rfl understood (ended.trans split)
    ⟨⟨by decide, by decide⟩, fun _ _ _ absurdity => by cases absurdity⟩
    (⟨rfl, rfl, rfl, by decide, by decide, delivers_reads _⟩ : Asked answering .listContent
      [ascii "bob", ascii "ana"] (ascii "10:05") (ascii "OK\x00") _ [])
    (by decide)
  exact ⟨s, before, result, events, middle, ended.trans split, episodes, told⟩

end DistrApp.Server
