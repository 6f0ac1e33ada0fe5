import DistrApp.Server.Serve

/-!
# Which entries DISCONNECT removes

`disconnect_serv` drops every 256-byte piece of the table that contains the
name anywhere.  That is the removal of one user's entries exactly when, for the
entries at hand, containing the name and having it as first field are the same.
-/

set_option autoImplicit false

namespace DistrApp.Server

open Text FileTree Effects

/-- The first field of an entry, as `connect_serv` writes them. -/
def firstField (line : Bytes) : Bytes := line.takeWhile fun b => b ≠ space ∧ b ≠ newline

def Listed (t : FileTree) (username : Bytes) : Prop :=
  ∃ text, table t = some text ∧ ∃ line ∈ lines text, firstField line = username

def withoutUser (username text : Bytes) : Bytes :=
  ((lines text).filter fun line => firstField line ≠ username).flatten

/-- DISCONNECT returns, exactly the entries of `username` are gone, and the
reply says whether there was one. -/
def RemovesEntry (t : FileTree) (username text : Bytes) : Prop :=
  ∀ s : Sys, s.tree = t → s.faults = [] → ∃ reply s',
    (disconnectServ username).run s = .ok reply s' ∧
      table s'.tree = some (withoutUser username text) ∧
      (reply = ascii "0" ∧ (∃ line ∈ lines text, firstField line = username) ∨
        reply = ascii "2" ∧ ∀ line ∈ lines text, firstField line ≠ username)

/-- On this table the test `strstr(line, username)` is the test of the first
field; and the name fits its array and temp.txt can be opened. -/
structure SubstringTestExact (t : FileTree) (username text : Bytes) : Prop where
  short : username.length < 244
  tempFree : t.node (tempPath t) ≠ some .dir
  exact : ∀ line ∈ lines text, ∀ piece ∈ pieces 256 line,
    username <:+: piece ↔ firstField line = username

/-! ## Dropping pieces and dropping lines -/

theorem count_flatMap_filter {α β : Type} [DecidableEq β] (ls : List α) (f : α → List β)
    (q : α → Bool) (b : β) :
    (ls.flatMap f).count b =
      ((ls.filter q).flatMap f).count b + ((ls.filter fun l => !q l).flatMap f).count b := by
  induction ls with
  | nil => rfl
  | cons head rest ih =>
      cases kept : q head <;>
        simp only [List.flatMap_cons, List.count_append, List.filter_cons, kept, Bool.not_false,
          Bool.not_true, if_true, Bool.false_eq_true, if_false, ih] <;> omega

theorem filter_flatMap_eq_iff {α β : Type} [DecidableEq β] {ls : List α} {f : α → List β}
    {p : β → Bool} {q : α → Bool} :
    (ls.flatMap f).filter p = (ls.filter q).flatMap f ↔ ∀ l ∈ ls, ∀ b ∈ f l, p b = q l := by
  constructor
  · intro same l member b inside
    have counts := congrArg (List.count b) same
    have total := count_flatMap_filter ls f q b
    cases chosen : p b with
    | true =>
        rw [List.count_filter chosen] at counts
        cases kept : q l with
        | true => rfl
        | false =>
            have dropped : b ∈ (ls.filter fun l => !q l).flatMap f :=
              List.mem_flatMap.mpr ⟨l, List.mem_filter.mpr ⟨member, by simp [kept]⟩, inside⟩
            have positive := List.count_pos_iff.mpr dropped
            omega
    | false =>
        cases kept : q l with
        | false => rfl
        | true =>
            have stays : b ∈ (ls.filter q).flatMap f :=
              List.mem_flatMap.mpr ⟨l, List.mem_filter.mpr ⟨member, kept⟩, inside⟩
            rw [← same] at stays
            have := (List.mem_filter.mp stays).2
            rw [chosen] at this
            cases this
  · intro agree
    induction ls with
    | nil => rfl
    | cons head rest ih =>
        have here := agree head List.mem_cons_self
        have later := ih fun l member => agree l (List.mem_cons_of_mem _ member)
        rw [List.flatMap_cons, List.filter_append, later, List.filter_cons]
        cases kept : q head with
        | true =>
            have all : (f head).filter p = f head :=
              List.filter_eq_self.mpr fun b inside => by rw [here b inside, kept]
            rw [all, if_pos rfl, List.flatMap_cons]
        | false =>
            have none_left : (f head).filter p = [] :=
              List.filter_eq_nil_iff.mpr fun b inside => by simp [here b inside, kept]
            rw [none_left]
            rfl

theorem flatMap_pieces_flatten (ls : List Bytes) :
    (ls.flatMap (pieces 256)).flatten = ls.flatten := by
  induction ls with
  | nil => rfl
  | cons head rest ih =>
      rw [List.flatMap_cons, List.flatten_append, pieces_flatten 256 (by omega), ih,
        List.flatten_cons]

theorem cString_piece {text piece : Bytes} (clean : (0 : UInt8) ∉ text)
    (member : piece ∈ pieces 256 text) : cString piece = piece := by
  apply cString_eq_self
  intro inside
  apply clean
  rw [← pieces_flatten 256 (by omega) text]
  exact List.mem_flatten.mpr ⟨piece, member, inside⟩

theorem kept_of_clean {username text : Bytes} (clean : (0 : UInt8) ∉ text) :
    kept username text =
      ((pieces 256 text).filter fun piece => !decide (username <:+: piece)).flatten := by
  have strings : ∀ piece ∈ pieces 256 text, cString piece = piece :=
    fun piece member => cString_piece clean member
  have tests : (pieces 256 text).filter (fun line => !decide (username <:+: cString line)) =
      (pieces 256 text).filter fun piece => !decide (username <:+: piece) := by
    apply List.filter_congr
    intro piece member
    rw [strings piece member]
  rw [kept, tests]
  congr 1
  exact (List.map_congr_left fun piece member =>
    strings piece (List.mem_filter.mp member).1).trans (List.map_id _)

theorem matchesSome_of_clean {username text : Bytes} (clean : (0 : UInt8) ∉ text) :
    matchesSome username text = true ↔ ∃ piece ∈ pieces 256 text, username <:+: piece := by
  rw [matchesSome, List.any_eq_true]
  constructor
  · rintro ⟨piece, member, found⟩
    exact ⟨piece, member, by simpa [cString_piece clean member] using found⟩
  · rintro ⟨piece, member, found⟩
    exact ⟨piece, member, by simpa [cString_piece clean member] using found⟩

/-- The pieces that are kept are the pieces of the lines to keep exactly when
the two tests agree: a list of pieces is determined by its text. -/
theorem kept_eq_withoutUser_iff {username text : Bytes} (clean : (0 : UInt8) ∉ text) :
    kept username text = withoutUser username text ↔
      ∀ line ∈ lines text, ∀ piece ∈ pieces 256 line,
        username <:+: piece ↔ firstField line = username := by
  have byPieces := pieces_eq_flatMap_lines 256 (by omega) text
  have agreement := @filter_flatMap_eq_iff _ _ _ (lines text) (pieces 256)
    (fun piece => !decide (username <:+: piece)) (fun line => decide (firstField line ≠ username))
  have whole := chunked_pieces 256 (by omega) text
  have shapeKept := whole.sublist
    (List.filter_sublist (p := fun piece => !decide (username <:+: piece)))
  have shapeWithout : Chunked 255
      (((lines text).filter fun line => decide (firstField line ≠ username)).flatMap
        (pieces 256)) := by
    apply whole.sublist
    rw [byPieces]
    exact List.filter_sublist.flatMap _
  have joined := flatMap_pieces_flatten
    ((lines text).filter fun line => decide (firstField line ≠ username))
  rw [kept_of_clean clean, withoutUser, ← joined]
  constructor
  · intro same
    have cuts := congrArg (pieces 256) same
    rw [pieces_of_chunked (by omega) shapeKept, pieces_of_chunked (by omega) shapeWithout,
      byPieces] at cuts
    intro line member piece inside
    have tests := agreement.mp cuts line member piece inside
    simpa [not_iff_not] using tests
  · intro tests
    rw [byPieces]
    congr 1
    apply agreement.mpr
    intro line member piece inside
    simp [tests line member piece inside]

/-! ## The whole operation -/

theorem access_withTemp {t : FileTree} {username : Bytes}
    (registered : t.access (folderOf username) = true) :
    (withTemp t).access (folderOf username) = true := by
  cases created : t.openWrite tempTxt with
  | none => rw [withTemp_of_none created, registered]
  | some opened =>
      obtain ⟨q, t₁⟩ := opened
      rw [withTemp_of_some created]
      obtain ⟨free, now, only⟩ := openWrite_some created
      refine (only.grows fun n here => ⟨_, now, ?_⟩).access registered
      have file : n ≠ .dir := fun dir => (creatable_some free).2.1 (dir ▸ here)
      simp [file]

theorem openWrite_temp_none {t : FileTree} (rooted : Rooted t)
    (dir : t.node (tempPath t) = some .dir) : t.openWrite tempTxt = none := by
  rw [openWrite, creatable_temp rooted, if_neg (fun free => free.2 dir)]
  rfl

theorem openWrite_temp_exists {t : FileTree} (rooted : Rooted t)
    (inside : t.node (usuarios t) = some .dir) (free : t.node (tempPath t) ≠ some .dir) :
    ∃ t₁, t.openWrite tempTxt = some (tempPath t, t₁) := by
  rw [openWrite, creatable_temp rooted, if_pos ⟨inside, free⟩]
  exact ⟨_, rfl⟩

theorem lines_have_pieces {text line : Bytes} (member : line ∈ lines text) :
    ∃ piece, piece ∈ pieces 256 line := by
  apply List.exists_mem_of_ne_nil
  intro empty
  have joined := pieces_flatten 256 (by omega) line
  rw [empty] at joined
  exact (isLine_of_mem member).1 joined.symm

theorem disconnect_swapped {s s' : Sys} (calm : s.faults = []) {username text reply : Bytes}
    (registered : s.tree.access (folderOf username) = true) (here : table s.tree = some text)
    (ran : (disconnectServ username).run s = .ok reply s') :
    username.length < 244 ∧ s.tree.node (tempPath s.tree) ≠ some .dir ∧
      reply = (if matchesSome username text then ascii "0" else ascii "2") ∧
      s'.faults = [] ∧ Swapped username text s.tree s'.tree := by
  have rooted := rooted_of_access registered
  have update : s.tree.openUpdate conectadosTxt = some (tablePath s.tree, text) :=
    openUpdate_table.mpr ⟨rooted, rfl, here⟩
  have short : username.length < 244 := by
    by_contra long
    obtain ⟨_, failed⟩ := run_disconnectServ_long calm (not_lt.mp long)
    rw [failed] at ran
    cases ran
  have tempFree : s.tree.node (tempPath s.tree) ≠ some .dir := by
    intro dir
    obtain ⟨_, failed⟩ := run_disconnectServ_noTemp calm short registered update
      (openWrite_temp_none rooted dir)
    rw [failed] at ran
    cases ran
  obtain ⟨t₁, created⟩ :=
    openWrite_temp_exists rooted (usuarios_isDir (table_eq_some.mp here)) tempFree
  obtain ⟨t', handles, ran', swapped⟩ := run_disconnectServ calm short
    (access_withTemp registered) update created
  rw [ran'] at ran
  cases ran
  exact ⟨short, tempFree, rfl, calm, swapped⟩

theorem removesEntry_iff {t : FileTree} {username text : Bytes} (clean : (0 : UInt8) ∉ text)
    (registered : t.access (folderOf username) = true) (here : table t = some text) :
    RemovesEntry t username text ↔ SubstringTestExact t username text := by
  have rooted := rooted_of_access registered
  have update : t.openUpdate conectadosTxt = some (tablePath t, text) :=
    openUpdate_table.mpr ⟨rooted, rfl, here⟩
  have inside := usuarios_isDir (table_eq_some.mp here)
  constructor
  · intro removes
    obtain ⟨reply, s', ran, after, _⟩ := removes ⟨t, [], []⟩ rfl rfl
    obtain ⟨short, tempFree, -, -, swapped⟩ :=
      @disconnect_swapped ⟨t, [], []⟩ s' rfl username text reply registered here ran
    have now : table s'.tree = some (kept username text) :=
      table_of_node_file swapped.cwd swapped.tableKept
    rw [now, Option.some.injEq] at after
    exact ⟨short, tempFree, (kept_eq_withoutUser_iff clean).mp after⟩
  · rintro ⟨short, tempFree, tests⟩ s rfl calm
    obtain ⟨t₁, created⟩ := openWrite_temp_exists rooted inside tempFree
    obtain ⟨t', handles, ran, swapped⟩ := run_disconnectServ calm short
      (access_withTemp registered) update created
    refine ⟨_, _, ran, ?_, ?_⟩
    · rw [← (kept_eq_withoutUser_iff clean).mpr tests]
      exact table_of_node_file swapped.cwd swapped.tableKept
    · cases found : matchesSome username text with
      | true =>
          obtain ⟨piece, member, contained⟩ := (matchesSome_of_clean clean).mp found
          rw [pieces_eq_flatMap_lines 256 (by omega), List.mem_flatMap] at member
          obtain ⟨line, listed, member⟩ := member
          exact Or.inl ⟨rfl, line, listed, (tests line listed piece member).mp contained⟩
      | false =>
          refine Or.inr ⟨rfl, fun line listed owned => ?_⟩
          obtain ⟨piece, member⟩ := lines_have_pieces listed
          have contained := (tests line listed piece member).mpr owned
          have some_match := (matchesSome_of_clean clean).mpr ⟨piece, by
            rw [pieces_eq_flatMap_lines 256 (by omega), List.mem_flatMap]
            exact ⟨line, listed, member⟩, contained⟩
          rw [found] at some_match
          cases some_match

/-- In every reachable state DISCONNECT removes exactly the user's entries if
and only if the substring test is the test of the first field there. -/
theorem disconnect_removes_entry_iff {t : FileTree} (reached : Reachable t) {username text : Bytes}
    (registered : t.access (folderOf username) = true) (here : table t = some text) :
    RemovesEntry t username text ↔ SubstringTestExact t username text :=
  removesEntry_iff (reachable_tableClean reached text here) registered here

def anaConnected : List Request :=
  [.register (ascii "ana"), .connect (ascii "ana") (ascii "4001") (ascii "10.0.0.1")]

def anaBetween : List Request :=
  [.register (ascii "bob"), .connect (ascii "bob") (ascii "4002") (ascii "10.0.0.2")] ++
    anaConnected ++
    [.register (ascii "eva"), .connect (ascii "eva") (ascii "4003") (ascii "10.0.0.3")]

def tableBetween : Bytes :=
  ascii "bob 10.0.0.2 4002 \nana 10.0.0.1 4001 \neva 10.0.0.3 4003 \n"

theorem table_anaBetween : table (treeAfter firstStart anaBetween) = some tableBetween := by
  decide +kernel

theorem registered_anaBetween :
    (treeAfter firstStart anaBetween).access (folderOf (ascii "ana")) = true := by
  decide +kernel

theorem disconnect_removes_entry_ana :
    RemovesEntry (treeAfter firstStart anaBetween) (ascii "ana") tableBetween ∧
      withoutUser (ascii "ana") tableBetween =
        ascii "bob 10.0.0.2 4002 \neva 10.0.0.3 4003 \n" :=
  ⟨(disconnect_removes_entry_iff (reachable_treeAfter (by decide) (by decide +kernel))
    registered_anaBetween table_anaBetween).mpr ⟨by decide, by decide +kernel, by decide⟩, by decide⟩

def anaAndMariana : List Request :=
  anaConnected ++ [.register (ascii "mariana"),
    .connect (ascii "mariana") (ascii "4002") (ascii "10.0.0.2")]

/-- When `ana` disconnects, the entry of `mariana` goes with hers. -/
theorem disconnect_drops_mariana :
    ¬ ∀ (t : FileTree) (username text : Bytes), Reachable t →
      (Request.disconnect username).Deliverable → username ≠ [] →
      t.access (folderOf username) = true → table t = some text → RemovesEntry t username text := by
  intro removes
  have reached : Reachable (treeAfter firstStart anaAndMariana) :=
    reachable_treeAfter (by decide) (by decide)
  have tableNow : table (treeAfter firstStart anaAndMariana) =
      some (ascii "ana 10.0.0.1 4001 \nmariana 10.0.0.2 4002 \n") := by decide
  have registered : (treeAfter firstStart anaAndMariana).access (folderOf (ascii "ana")) = true := by
    decide
  have exact := (removesEntry_iff (by decide) registered tableNow).mp
    (removes _ _ _ reached (by decide) (by decide) registered tableNow)
  exact absurd (exact.exact (ascii "mariana 10.0.0.2 4002 \n") (by decide)
    (ascii "mariana 10.0.0.2 4002 \n") (by decide)) (by decide)

end DistrApp.Server
