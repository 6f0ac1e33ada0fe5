import DistrApp.Server.Described
import DistrApp.Server.Refines

/-!
# One file after the other

As long as PUBLISH gets new names that fit, it takes them all, so a folder comes
to have any number of files.
-/

set_option autoImplicit false

namespace DistrApp.Server

open Text FileTree Effects

theorem Reachable.serves {t t' : FileTree} {event : Request × Reply} (reached : Reachable t)
    (served : Serves t event t') : Reachable t' := by
  obtain ⟨start, started, history, run⟩ := reached
  exact ⟨start, started, history ++ [event], run.next served⟩

theorem RegisteredOnce.congr {t t' : FileTree} {username : Bytes}
    (registered : RegisteredOnce t username) (cwd : t'.cwd = t.cwd) : RegisteredOnce t' username := by
  obtain ⟨s, s', same, dir, ran⟩ := registered
  exact ⟨s, s', same.trans cwd.symm, by rw [usuarios_congr cwd]; exact dir, ran⟩

/-- The user has files of exactly these names beside this table, and no call
is going to fail. -/
structure Stocked (username text : Bytes) (names : List Bytes) (s : Sys) : Prop where
  calm : s.faults = []
  reached : Reachable s.tree
  registered : RegisteredOnce s.tree username
  here : table s.tree = some text
  distinct : names.Nodup
  stored : ∃ m files, Represents s.tree m ∧ m username = some files ∧
    ∀ f, f ∈ names ↔ files f ≠ none

section Stocking
variable {username text fileName description : Bytes} {names : List Bytes} {s : Sys}

theorem table_publish {t t' : FileTree} {res : Bytes}
    (outcome : Outcome t (.publish username fileName description) res t')
    (there : table t' ≠ none) : table t' = table t := by
  rcases outcome_table outcome with same | gone | ⟨_, _, _, _, request, _⟩ | ⟨_, _, request, _⟩
  · exact same
  · exact absurd gone there
  · cases request
  · cases request

theorem Stocked.publish (stocked : Stocked username text names s)
    (fits : NamesFit (.publish username fileName description))
    (deliverable : (Request.publish username fileName description).Deliverable)
    (scan : scanWords 100 username (words text) ≠ none) (new : fileName ∉ names) :
    ∃ reply s', (serve (.publish username fileName description)).run s = .ok reply s' ∧
      reply.res = ascii "0" ∧ Stocked username text (fileName :: names) s' := by
  obtain ⟨m, files, rep, held, all⟩ := stocked.stored
  have absent : files fileName = none := not_not.mp fun filed => new ((all fileName).mpr filed)
  obtain ⟨reply, s', ran, calm, answers, rep'⟩ := simulates_publish stocked.calm rep fits
    fun _ here => Option.some.inj (here.symm.trans stocked.here) ▸ scan
  simp only [Answers, applyRequest, Directory.publish, held, absent, if_true] at answers rep'
  have outcome := serve_ok ran
  have served : Serves s.tree (.publish username fileName description, reply) s'.tree :=
    ⟨deliverable, s, s', rfl, ran, rfl⟩
  refine ⟨reply, s', ran, answers, calm, stocked.reached.serves served,
    stocked.registered.congr (outcome_cwd outcome), ?_,
    List.nodup_cons.mpr ⟨new, stocked.distinct⟩, _, _, rep', Function.update_self .., fun f => ?_⟩
  · obtain ⟨_, there⟩ := rep'.tableThere
    rw [table_publish outcome (by rw [there]; simp), stocked.here]
  · by_cases same : f = fileName
    · simp [same]
    · rw [List.mem_cons, or_iff_right same, Function.update_of_ne same]
      exact all f

theorem stocked_all (stocked : Stocked username text [] s)
    (scan : scanWords 100 username (words text) ≠ none) (distinct : names.Nodup)
    (fits : ∀ f ∈ names, NamesFit (.publish username f description) ∧
      (Request.publish username f description).Deliverable) :
    ∃ s', Stocked username text names s' := by
  induction names with
  | nil => exact ⟨s, stocked⟩
  | cons f names ih =>
      obtain ⟨new, distinct⟩ := List.nodup_cons.mp distinct
      obtain ⟨first, rest⟩ := List.forall_mem_cons.mp fits
      obtain ⟨s', filled⟩ := ih distinct rest
      obtain ⟨_, s'', _, _, more⟩ := filled.publish first.1 first.2 scan new
      exact ⟨s'', more⟩

theorem Stocked.folder (stocked : Stocked username text names s) (proper : ProperName username) :
    ∃ entries, s.tree.opendir (folderOf username) = some entries ∧
      (files entries).length = names.length ∧ ∀ file ∈ files entries, file.2 ≠ [] := by
  obtain ⟨m, filesOf, rep, held, all⟩ := stocked.stored
  have stored := rep.stored username proper
  rw [held] at stored
  obtain ⟨dir, holds, -⟩ := stored
  refine ⟨_, by rw [opendir_name rep.rooted proper.1, if_pos dir], ?_, ?_⟩
  · rw [length_files, regularEntries_length holds, Directory.fileCount_eq_length stocked.distinct all]
  · rintro ⟨name, content⟩ member
    have node := mem_entries.mp (mem_files.mp member)
    rw [child_append] at node
    obtain ⟨_, _, -, -, same⟩ := (holds name _).mp node
    cases same
    simp

end Stocking

end DistrApp.Server
