import DistrApp.Server.Disconnect

/-!
# Connected users and their folders

Nothing ties the table to the folders: UNREGISTER leaves the table alone, and
the other operations reach it and the folders through unchecked names.
`KeepsListed` says of a request that it does none of this to the users listed
at that moment, and along runs of such requests connected implies registered.
-/

set_option autoImplicit false

namespace DistrApp.Server

open Text FileTree Effects

/-- Every user with an entry has a folder. -/
def ConnectedRegistered (t : FileTree) : Prop :=
  ∀ text, table t = some text → ∀ line ∈ lines text,
    t.node (usuarios t ++ [firstField line]) = some .dir

def NotListed (t : FileTree) (p : Path) : Prop :=
  ∀ text, table t = some text → ∀ line ∈ lines text, p ≠ usuarios t ++ [firstField line]

/-- The request leaves the folders of listed users in place, lists only a user
with a folder, and cuts no entry in two. -/
def KeepsListed (t : FileTree) : Request → Prop
  | .unregister username =>
      ∀ p, t.find (folderOf username) = some (p, .dir) → NotListed t p
  | .delete username fileName =>
      ∀ p, t.find (fileOf (folderOf username) fileName) = some (p, .dir) → NotListed t p
  | .connect username _ _ =>
      t.access (folderOf username) = true → t.node (usuarios t ++ [firstField username]) = some .dir
  | .disconnect username =>
      ∀ text, table t = some text → ∀ line ∈ lines text,
        (∀ piece ∈ pieces 256 line, username <:+: piece) ∨
          ∀ piece ∈ pieces 256 line, ¬ username <:+: piece
  | _ => True

def SafeStep (t : FileTree) (event : Request × Reply) (t' : FileTree) : Prop :=
  Serves t event t' ∧ KeepsListed t event.1

/-! ## Entries and lines -/

theorem firstField_append_space (username rest : Bytes) :
    firstField (username ++ space :: rest) = firstField username := by
  rw [firstField, firstField, List.takeWhile_append]
  split
  · rename_i whole
    rw [(List.takeWhile_prefix _).eq_of_length whole]
    simp
  · rfl

theorem tableEntry_eq (username freeServer freePort : Bytes) :
    tableEntry username freeServer freePort =
      username ++ space :: (freeServer ++ space :: (freePort ++ [space])) ++ [newline] := by
  simp [tableEntry, show ascii " " = [space] by decide, show ascii " \n" = [space, newline] by decide]

theorem firstField_tableEntry (username freeServer freePort : Bytes) :
    firstField (tableEntry username freeServer freePort) = firstField username := by
  rw [tableEntry_eq, List.append_assoc, List.cons_append, firstField_append_space]

theorem lines_tableEntry {username freeServer freePort : Bytes}
    (deliverable : (Request.connect username freePort freeServer).Deliverable) :
    lines (tableEntry username freeServer freePort) =
      [tableEntry username freeServer freePort] := by
  have plain : newline ∉ username ++ space :: (freeServer ++ space :: (freePort ++ [space])) := by
    have user := (deliverable username (by simp [Request.fields, Request.username])).2
    have server := (deliverable freeServer (by simp [Request.fields, Request.others])).2
    have port := (deliverable freePort (by simp [Request.fields, Request.others])).2
    simp [user, server, port, show newline ≠ space by decide]
  rw [tableEntry_eq]
  exact lines_single plain

theorem finished_tableEntry (text username freeServer freePort : Bytes) :
    Finished (text ++ tableEntry username freeServer freePort) := by
  right
  rw [tableEntry_eq, ← List.append_assoc, List.getLast?_concat]

theorem kept_lines {username text : Bytes} (clean : (0 : UInt8) ∉ text)
    (uncut : ∀ line ∈ lines text, (∀ piece ∈ pieces 256 line, username <:+: piece) ∨
      ∀ piece ∈ pieces 256 line, ¬ username <:+: piece) :
    ∃ ls : List Bytes, ls.Sublist (lines text) ∧ kept username text = ls.flatten := by
  let q : Bytes → Bool := fun line =>
    decide (∀ piece ∈ pieces 256 line, ¬ username <:+: piece)
  refine ⟨(lines text).filter q, List.filter_sublist, ?_⟩
  have agree : ((lines text).flatMap (pieces 256)).filter
      (fun piece => !decide (username <:+: piece)) = ((lines text).filter q).flatMap (pieces 256) := by
    rw [filter_flatMap_eq_iff]
    intro line member piece inside
    rcases uncut line member with all | none_of
    · have found := all piece inside
      have fails : ¬ ∀ piece ∈ pieces 256 line, ¬ username <:+: piece :=
        fun absurdity => absurdity piece inside found
      simp only [q, found, fails, decide_true, decide_false, Bool.not_true]
    · have missing := none_of piece inside
      simp only [q, missing, decide_false, Bool.not_false]
      simpa using none_of
  rw [kept_of_clean clean, pieces_eq_flatMap_lines 256 (by omega), agree, flatMap_pieces_flatten]

/-! ## The invariant -/

/-- The table is clean and whole, and whoever is in it is registered. -/
structure Linked (t : FileTree) : Prop where
  clean : TableClean t
  whole : ∀ text, table t = some text → Finished text
  listed : ConnectedRegistered t

theorem linked_of_started {t : FileTree} (started : Started t) : Linked t := by
  refine ⟨fun text here => ?_, fun text here => ?_, fun text here line member => ?_⟩ <;>
    rw [started.2] at here <;> cases here
  · simp
  · exact Or.inl rfl
  · cases member

theorem folder_kept {t t' : FileTree} {event : Request × Reply} (step : SafeStep t event t')
    {text line : Bytes} (here : table t = some text) (member : line ∈ lines text)
    (dir : t.node (usuarios t ++ [firstField line]) = some .dir) :
    t'.node (usuarios t' ++ [firstField line]) = some .dir := by
  have outcome := serves_outcome step.1
  have keeps := step.2
  rw [usuarios_congr (outcome_cwd outcome)]
  rcases outcome_dir outcome dir with still | ⟨username, request, found⟩ |
    ⟨username, fileName, request, found⟩
  · exact still
  · rw [request] at keeps
    exact absurd rfl (keeps _ found text here line member)
  · rw [request] at keeps
    exact absurd rfl (keeps _ found text here line member)

theorem linked_step {t t' : FileTree} {event : Request × Reply} (linked : Linked t)
    (step : SafeStep t event t') : Linked t' := by
  have outcome := serves_outcome step.1
  have keeps := step.2
  have deliverable := step.1.1
  have cleanAfter := serves_tableClean linked.clean step.1
  have cwd := outcome_cwd outcome
  rcases outcome_table outcome with same | gone | connecting | disconnecting
  · refine ⟨cleanAfter, fun text here => linked.whole text (same ▸ here), ?_⟩
    intro text here line member
    rw [same] at here
    exact folder_kept step here member (linked.listed text here line member)
  · refine ⟨cleanAfter, fun text here => ?_, fun text here => ?_⟩ <;>
      rw [gone] at here <;> cases here
  · obtain ⟨username, freePort, freeServer, before, request, held, registered, now⟩ := connecting
    have old : Finished before ∧ ∀ line ∈ lines before,
        t'.node (usuarios t' ++ [firstField line]) = some .dir := by
      rcases held with held | ⟨_, rfl⟩
      · exact ⟨linked.whole before held, fun line member =>
          folder_kept step held member (linked.listed before held line member)⟩
      · exact ⟨Or.inl rfl, fun line member => by cases member⟩
    rcases now with now | ⟨_, _, now⟩
    · refine ⟨cleanAfter, fun text here => ?_, fun text here => ?_⟩ <;>
        rw [now] at here <;> cases here
      · exact old.1
      · exact old.2
    · refine ⟨cleanAfter, fun text here => ?_, fun text here line member => ?_⟩ <;>
        rw [now] at here <;> cases here
      · exact finished_tableEntry _ _ _ _
      · rw [request] at deliverable
        rw [lines_append old.1, lines_tableEntry deliverable, List.mem_append,
          List.mem_singleton] at member
        rcases member with member | rfl
        · exact old.2 line member
        · rw [request] at keeps
          have dir := keeps registered
          rw [firstField_tableEntry, usuarios_congr cwd]
          rcases outcome_dir outcome dir with still | ⟨_, absurdity, _⟩ | ⟨_, _, absurdity, _⟩
          · exact still
          · rw [request] at absurdity; cases absurdity
          · rw [request] at absurdity; cases absurdity
  · obtain ⟨username, before, request, held, now⟩ := disconnecting
    rw [request] at keeps
    obtain ⟨ls, sub, joined⟩ := kept_lines (linked.clean before held) (keeps before held)
    refine ⟨cleanAfter, fun text here => ?_, fun text here line member => ?_⟩ <;>
      rw [now] at here <;> cases here
    · rw [joined]
      exact finished_of_sublist (linked.whole before held) sub
    · rw [joined, lines_of_sublist sub] at member
      have member := sub.subset member
      exact folder_kept step held member (linked.listed before held line member)

/-- Along runs whose requests keep the listed users, connected implies
registered, and a name that REGISTER accepts has no entry from before. -/
theorem connected_registered {start t : FileTree} {history : History} (started : Started start)
    (run : Run SafeStep start history t) :
    ConnectedRegistered t ∧
      ∀ (username : Bytes) (reply : Reply) (t' : FileTree),
        Serves t (.register username, reply) t' → reply.res = ascii "0" →
        ∀ text, table t' = some text → ∀ line ∈ lines text, firstField line ≠ username := by
  have linked : Linked t :=
    run.invariant (P := fun _ t => Linked t) (linked_of_started started)
      fun linked step => linked_step linked step
  refine ⟨linked.listed, ?_⟩
  intro username reply t' served zero text here line member owned
  have outcome := serves_outcome served
  rw [zero] at outcome
  cases outcome with
  | unchanged quiet => exact quiet rfl
  | registered made =>
      obtain ⟨p, resolved, absent, dir, only⟩ := mkdir_some made
      have same : table t' = table t := by
        refine table_of_node_eq only.cwd (only.others _ ?_)
        rintro rfl
        rw [table, tablePath_congr only.cwd, dir] at here
        cases here
      rw [same] at here
      have folder := linked.listed text here line member
      rw [owned] at folder
      have valid := (node_parent (t := t) (by rw [folder]; simp)).2
      have rooted := rooted_of_resolve resolved
      rw [resolve_name rooted valid, if_pos (usuarios_isDir folder)] at resolved
      cases resolved
      rw [folder] at absent
      cases absent

theorem connected_registered_ana :
    ConnectedRegistered (treeAfter firstStart anaConnected) := by
  have started : Started firstStart := by decide
  have keeps : HoldsAlong KeepsListed firstStart anaConnected :=
    ⟨trivial, fun _ => by decide, trivial⟩
  exact (connected_registered started
    (run_of_holdsAlong (by decide) keeps (by decide))).1

/-- `ana` connects and unregisters: her entry stays without her folder. -/
theorem unregister_leaves_entry :
    ¬ ∀ (start t : FileTree) (history : History), Started start → Run Serves start history t →
      ConnectedRegistered t := by
  intro linked
  have registered := linked firstStart
    (treeAfter firstStart (anaConnected ++ [.unregister (ascii "ana")])) _ (by decide)
    (run_treeAfter (by decide) (by decide +kernel))
  have tableNow : table (treeAfter firstStart (anaConnected ++ [.unregister (ascii "ana")])) =
      some (ascii "ana 10.0.0.1 4001 \n") := by decide +kernel
  exact absurd (registered _ tableNow (ascii "ana 10.0.0.1 4001 \n") (by decide))
    (by decide +kernel)

end DistrApp.Server
