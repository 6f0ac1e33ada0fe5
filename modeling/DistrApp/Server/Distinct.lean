import DistrApp.Server.Connected

/-!
# One entry for each user

CONNECT looks for the name among the words of the table, DISCONNECT drops
lines.  For names without white space and entries that one `fgets` reads, the
first field of a line is one of its words and lines go whole, so that no user
is ever listed twice.
-/

set_option autoImplicit false

namespace DistrApp.Server

open Text FileTree Effects

/-- The name is one word and its entry fits the line buffer.  The other
operations need no such condition. -/
def OneWord : Request → Prop
  | .connect username freePort freeServer =>
      username ≠ [] ∧ (∀ b ∈ username, isSpace b = false) ∧
        (tableEntry username freeServer freePort).length ≤ 255
  | _ => True

instance : DecidablePred OneWord
  | .connect username freePort freeServer =>
      inferInstanceAs (Decidable (username ≠ [] ∧ (∀ b ∈ username, isSpace b = false) ∧
        (tableEntry username freeServer freePort).length ≤ 255))
  | .register _ | .unregister _ | .disconnect _ | .publish _ _ _ | .delete _ _ | .listUsers _
  | .listContent _ _ => isTrue trivial

/-- No two lines of the table have the same first field. -/
def Distinct (t : FileTree) : Prop :=
  ∀ text, table t = some text → ((lines text).map firstField).Nodup

/-! ## The text of the table -/

structure Entries (text : Bytes) : Prop where
  whole : Finished text
  short : ∀ line ∈ lines text, line.length ≤ 255
  fields : ∀ line ∈ lines text, firstField line ∈ words line
  distinct : ((lines text).map firstField).Nodup

theorem entries_nil : Entries [] := by
  refine ⟨Or.inl rfl, ?_, ?_, ?_⟩ <;> simp

theorem Entries.sublist {text : Bytes} (entries : Entries text) {ls : List Bytes}
    (sub : ls.Sublist (lines text)) : Entries ls.flatten := by
  have same := lines_of_sublist sub
  refine ⟨finished_of_sublist entries.whole sub, ?_, ?_, ?_⟩
  · rw [same]
    exact fun line member => entries.short line (sub.subset member)
  · rw [same]
    exact fun line member => entries.fields line (sub.subset member)
  · rw [same]
    exact entries.distinct.sublist (sub.map firstField)

theorem entries_kept {username text : Bytes} (clean : (0 : UInt8) ∉ text)
    (entries : Entries text) : Entries (kept username text) := by
  obtain ⟨ls, sub, joined⟩ := @kept_lines username text clean (by
    intro line member
    rw [pieces_of_short member (Nat.lt_succ_of_le (entries.short line member))]
    by_cases found : username <:+: line
    · exact Or.inl (by simpa using found)
    · exact Or.inr (by simpa using found))
  rw [joined]
  exact entries.sublist sub

/-! ## The scan of CONNECT -/

theorem scanWords_fresh {size : Nat} {username : Bytes} {read : List Bytes}
    (free : scanWords size username read = some false) : ∀ word ∈ read, cString word ≠ username := by
  induction read with
  | nil => simp
  | cons word rest ih =>
      rw [scanWords] at free
      split at free
      · cases free
      · split at free
        · cases free
        · rename_i other
          intro next member
          rcases List.mem_cons.mp member with rfl | member
          · exact other
          · exact ih free next member

theorem firstField_of_plain {username : Bytes} (plain : ∀ b ∈ username, isSpace b = false) :
    firstField username = username := by
  apply List.takeWhile_eq_self_iff.mpr
  intro b member
  have visible := plain b member
  have notSpace : b ≠ space := fun same => by rw [same] at visible; exact absurd visible (by decide)
  have notNewline : b ≠ newline :=
    fun same => by rw [same] at visible; exact absurd visible (by decide)
  simp [notSpace, notNewline]

theorem fresh_of_scan {username text : Bytes} (clean : (0 : UInt8) ∉ text)
    (entries : Entries text) (free : scanWords 256 username (words text) = some false) :
    username ∉ (lines text).map firstField := by
  intro listed
  obtain ⟨line, member, rfl⟩ := List.mem_map.mp listed
  have word : firstField line ∈ words text := by
    rw [words_lines, List.mem_flatMap]
    exact ⟨line, member, entries.fields line member⟩
  refine scanWords_fresh free _ word (cString_eq_self fun inside => clean ?_)
  have inLine : (0 : UInt8) ∈ line := (List.takeWhile_prefix _).subset inside
  rw [← lines_flatten text]
  exact List.mem_flatten.mpr ⟨line, member, inLine⟩

theorem entries_connect {username freePort freeServer text : Bytes} (clean : (0 : UInt8) ∉ text)
    (deliverable : (Request.connect username freePort freeServer).Deliverable)
    (oneWord : OneWord (.connect username freePort freeServer)) (entries : Entries text)
    (free : scanWords 256 username (words text) = some false) :
    Entries (text ++ tableEntry username freeServer freePort) := by
  obtain ⟨nonempty, plain, short⟩ := oneWord
  have field : firstField (tableEntry username freeServer freePort) = username := by
    rw [firstField_tableEntry, firstField_of_plain plain]
  have split : lines (text ++ tableEntry username freeServer freePort) =
      lines text ++ [tableEntry username freeServer freePort] := by
    rw [lines_append entries.whole, lines_tableEntry deliverable]
  refine ⟨finished_tableEntry _ _ _ _, ?_, ?_, ?_⟩
  · rw [split]
    intro line member
    rcases List.mem_append.mp member with old | new
    · exact entries.short line old
    · rw [List.mem_singleton.mp new]
      exact short
  · rw [split]
    intro line member
    rcases List.mem_append.mp member with old | new
    · exact entries.fields line old
    · rw [List.mem_singleton.mp new, field, tableEntry_eq, List.append_assoc, List.cons_append,
        words_append_cons _ _ (by decide), words_single nonempty plain]
      exact List.mem_append_left _ (List.mem_singleton.mpr rfl)
  · rw [split, List.map_append, List.map_singleton, field, ← List.concat_eq_append]
    exact entries.distinct.concat (fresh_of_scan clean entries free)

/-! ## Runs -/

structure Recorded (t : FileTree) : Prop where
  clean : TableClean t
  entries : ∀ text, table t = some text → Entries text

theorem recorded_of_started {t : FileTree} (started : Started t) : Recorded t := by
  refine ⟨fun text here => ?_, fun text here => ?_⟩ <;> rw [started.2] at here <;> cases here
  · simp
  · exact entries_nil

theorem recorded_step {t t' : FileTree} {event : Request × Reply} (recorded : Recorded t)
    (served : Serves t event t') (oneWord : OneWord event.1) : Recorded t' := by
  refine ⟨serves_tableClean recorded.clean served, fun text here => ?_⟩
  have deliverable := served.1
  rcases outcome_table (serves_outcome served) with same | gone | connecting | disconnecting
  · exact recorded.entries text (same ▸ here)
  · rw [gone] at here
    cases here
  · obtain ⟨username, freePort, freeServer, before, request, held, _, now⟩ := connecting
    have old : (0 : UInt8) ∉ before ∧ Entries before := by
      rcases held with held | ⟨_, rfl⟩
      · exact ⟨recorded.clean before held, recorded.entries before held⟩
      · exact ⟨by simp, entries_nil⟩
    rcases now with now | ⟨_, free, now⟩
    · rw [now] at here
      cases here
      exact old.2
    · rw [now] at here
      cases here
      rw [request] at deliverable oneWord
      exact entries_connect old.1 deliverable oneWord old.2 free
  · obtain ⟨username, before, _, held, now⟩ := disconnecting
    rw [now] at here
    cases here
    exact entries_kept (recorded.clean before held) (recorded.entries before held)

/-- However the requests follow each other and whatever calls fail, no two
lines of the table have the same first field. -/
theorem entries_distinct {start t : FileTree} {history : History} (started : Started start)
    (run : Run Serves start history t) (oneWord : ∀ event ∈ history, OneWord event.1) :
    Distinct t := by
  have recorded : (∀ event ∈ history, OneWord event.1) → Recorded t := by
    refine run.invariant (P := fun past t => (∀ event ∈ past, OneWord event.1) → Recorded t)
      (fun _ => recorded_of_started started) ?_
    intro past middle label later before step all
    have earlier := before fun event member => all event (List.mem_append_left _ member)
    exact recorded_step earlier step (all label (List.mem_append_right _ (List.mem_singleton.mpr rfl)))
  exact fun text here => ((recorded oneWord).entries text here).distinct

theorem entries_distinct_ana : Distinct (treeAfter firstStart anaAndMariana) := by
  have started : Started firstStart := by decide
  have served : (serveAll firstStart anaAndMariana).isSome = true := by decide +kernel
  exact entries_distinct started (run_treeAfter (by decide) served) (by decide +kernel)

end DistrApp.Server
