import DistrApp.Server.Serve

/-!
# What PUBLISH leaves

The file of an accepted PUBLISH, how DELETE takes it back, and how long it
stays.  `publish_serv` takes the empty file name, `delete_serv` does not.
-/

set_option autoImplicit false

namespace DistrApp.Server

open Text FileTree Effects

section Publishing
variable {t t' : FileTree} {username fileName description : Bytes}

theorem published_put (publication : Published username fileName description t t') :
    ∃ q, t.resolve (fileOf (folderOf username) fileName) = some q ∧ t.node q = none ∧
      t.Placeable q ∧ t' = t.put q (.file (description ++ [newline])) := by
  obtain ⟨q, resolved, absent, -, -⟩ := published_node publication
  obtain ⟨q', t₁, created, rfl⟩ := publication.written
  obtain ⟨p, free, pair⟩ := Option.map_eq_some_iff.mp created
  obtain ⟨rfl, rfl⟩ := Prod.mk.inj pair
  obtain ⟨resolved', -, fits⟩ := creatable_some free
  cases resolved.symm.trans resolved'
  refine ⟨q, resolved, absent, fits, ?_⟩
  rw [FileTree.append, node_put_self fits]
  exact put_put fits _ _

theorem published_grows (publication : Published username fileName description t t') :
    Grows t t' := by
  obtain ⟨q, -, absent, -, only⟩ := published_node publication
  refine only.grows fun n here => ?_
  rw [absent] at here
  cases here

theorem getLast?_fileOf (foldername fileName : Bytes) :
    (fileOf foldername fileName).getLast? ≠ some slash := by
  rw [fileOf, List.getLast?_append, show (ascii ".txt").getLast? = some 116 by decide]
  exact fun same => absurd (Option.some.inj same) (by decide)

theorem remove_published (publication : Published username fileName description t t') :
    t'.remove (fileOf (folderOf username) fileName) = some t := by
  have grows := published_grows publication
  obtain ⟨q, resolved, absent, fits, rfl⟩ := published_put publication
  have found : (t.put q (.file (description ++ [newline]))).find
      (fileOf (folderOf username) fileName) = some (q, .file (description ++ [newline])) := by
    rw [FileTree.find, grows.resolve resolved, Option.bind_some, node_put_self fits,
      Option.bind_some, if_neg fun both => getLast?_fileOf _ _ both.1]
  rw [FileTree.remove, found]
  simp only
  rw [erase_put fits absent]

end Publishing

theorem openRead_ne_none {t : FileTree} {path : Bytes} :
    t.openRead path ≠ none ↔ t.access path = true := by
  rw [FileTree.openRead, FileTree.access]
  split <;> simp [*]

theorem published_fits {s s' : Sys} (calm : s.faults = []) {username fileName description : Bytes}
    (ran : (publishServ username fileName description).run s = .ok (ascii "0") s') :
    username.length < 38 ∧ username.length + fileName.length < 83 ∧ s'.faults = [] := by
  rw [run_publishServ calm] at ran
  have other : ∀ {code : Bytes} {s₁ : Sys}, code ≠ ascii "0" →
      (EStateM.Result.ok code s₁ : EStateM.Result Undefined Sys Bytes) ≠ .ok (ascii "0") s' :=
    fun different same => different (EStateM.Result.ok.inj same).1
  split at ran
  · cases ran
  · rename_i short
    split at ran
    · exact absurd ran (other (by decide))
    · split at ran
      · exact absurd ran (other (by decide))
      · split at ran
        · exact absurd ran (other (by decide))
        · simp only at ran
          split at ran
          · cases ran
          · split at ran
            · exact absurd ran (other (by decide))
            · split at ran
              · exact absurd ran (other (by decide))
              · rw [← (EStateM.Result.ok.inj ran).2]
                exact ⟨by omega, by omega, calm⟩

theorem run_deleteServ_nil (s : Sys) (username : Bytes) :
    (deleteServ username []).run s = .ok (ascii "4") s := by
  rw [deleteServ, if_pos (Or.inl List.length_nil), EStateM.run_pure]

/-- An accepted PUBLISH is undone by DELETE just when the file name is not empty. -/
theorem delete_undoes_publish {s s' : Sys} (calm : s.faults = [])
    {username fileName description : Bytes}
    (ran : (publishServ username fileName description).run s = .ok (ascii "0") s') :
    (∃ s'', (deleteServ username fileName).run s' = .ok (ascii "0") s'' ∧ s''.tree = s.tree) ↔
      fileName ≠ [] := by
  obtain ⟨short, shorter, calm'⟩ := published_fits calm ran
  obtain ⟨refused, -⟩ | ⟨-, publication⟩ := publishServ_ok ran
  · exact absurd rfl refused
  · have grows := published_grows publication
    have deleted := run_deleteServ calm' username fileName
    constructor
    · rintro ⟨s'', undone, -⟩ rfl
      rw [run_deleteServ_nil] at undone
      exact absurd (EStateM.Result.ok.inj undone).1 (by decide)
    · intro named
      obtain ⟨table, here⟩ := Option.ne_none_iff_exists'.mp
        (openRead_ne_none.mpr (grows.access (openRead_ne_none.mp publication.tableOpens)))
      have length := List.length_pos_of_ne_nil named
      rw [if_neg (by omega), if_neg (by omega), grows.access publication.registered, here,
        remove_published publication] at deleted
      simp only [Bool.not_true, Bool.false_eq_true, if_false] at deleted
      rw [if_neg (by omega)] at deleted
      exact ⟨_, deleted, rfl⟩

theorem delete_undoes_publish_ana :
    ∃ s' s'', (publishServ (ascii "ana") (ascii "notes") (ascii "first")).run
        ⟨treeAfter firstStart [.register (ascii "ana")], [], []⟩ = .ok (ascii "0") s' ∧
      (deleteServ (ascii "ana") (ascii "notes")).run s' = .ok (ascii "0") s'' ∧
      s''.tree = treeAfter firstStart [.register (ascii "ana")] := by
  have accepted : resOf ((serve (.publish (ascii "ana") (ascii "notes") (ascii "first"))).run
      ⟨treeAfter firstStart [.register (ascii "ana")], [], []⟩) = some (ascii "0") := by
    decide +kernel
  generalize treeAfter firstStart [.register (ascii "ana")] = t at accepted ⊢
  cases ran : (publishServ (ascii "ana") (ascii "notes") (ascii "first")).run ⟨t, [], []⟩ with
  | ok reply s' =>
      rw [serve, run_answer_ok ran] at accepted
      obtain rfl : reply = ascii "0" := Option.some.inj accepted
      obtain ⟨s'', undone, same⟩ := (delete_undoes_publish rfl ran).mpr (by decide)
      exact ⟨s', s'', rfl, undone, same⟩
  | error e s' =>
      rw [serve, run_answer_error ran] at accepted
      cases accepted

/-- The file of the empty name is published and cannot be deleted. -/
theorem delete_refuses_empty_name :
    ¬ ∀ (s s' : Sys) (username fileName description : Bytes), Reachable s.tree →
      s.faults = [] → (Request.publish username fileName description).Deliverable →
      (publishServ username fileName description).run s = .ok (ascii "0") s' →
      ∃ s'', (deleteServ username fileName).run s' = .ok (ascii "0") s'' ∧
        s''.tree = s.tree := by
  intro always
  have reached : Reachable (treeAfter firstStart [.register (ascii "ana")]) :=
    reachable_treeAfter (by decide) (by decide +kernel)
  have accepted : resOf ((serve (.publish (ascii "ana") [] (ascii "first"))).run
      ⟨treeAfter firstStart [.register (ascii "ana")], [], []⟩) = some (ascii "0") := by
    decide +kernel
  generalize treeAfter firstStart [.register (ascii "ana")] = t at reached accepted
  cases ran : (publishServ (ascii "ana") [] (ascii "first")).run ⟨t, [], []⟩ with
  | ok reply s' =>
      rw [serve, run_answer_ok ran] at accepted
      obtain rfl : reply = ascii "0" := Option.some.inj accepted
      obtain ⟨s'', undone, -⟩ := always ⟨t, [], []⟩ s' (ascii "ana") [] (ascii "first") reached rfl
        (by decide) ran
      rw [run_deleteServ_nil] at undone
      exact absurd (EStateM.Result.ok.inj undone).1 (by decide)
  | error e s' =>
      rw [serve, run_answer_error ran] at accepted
      cases accepted

end DistrApp.Server
