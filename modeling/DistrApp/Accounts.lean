import DistrApp.Directory

/-!
# The accounts

What the server keeps for one user: the published files, where the user is
registered, and the place where the user's client listens, where it is
connected.  Nothing here asks for one before the other: a user who is
unregistered stays connected, and the files can be changed without a connection.
-/

set_option autoImplicit false

namespace DistrApp

open Directory (Verdict)

structure Account (File Text Place : Type) where
  files : Option (File → Option Text)
  session : Option Place

namespace Account

section Operations
variable {File Text Place : Type} [DecidableEq File]

def vacant : Account File Text Place := ⟨none, none⟩

def register (a : Account File Text Place) : Verdict × Account File Text Place :=
  match a.files with
  | none => (.done, { a with files := some fun _ => none })
  | some _ => (.refused, a)

def unregister (a : Account File Text Place) : Verdict × Account File Text Place :=
  match a.files with
  | none => (.refused, a)
  | some _ => (.done, { a with files := none })

/-- A second connection is refused, wherever it comes from. -/
def connect (a : Account File Text Place) (place : Place) : Verdict × Account File Text Place :=
  match a.files, a.session with
  | none, _ => (.refused, a)
  | some _, some _ => (.conflict, a)
  | some _, none => (.done, { a with session := some place })

def disconnect (a : Account File Text Place) : Verdict × Account File Text Place :=
  match a.files, a.session with
  | none, _ => (.refused, a)
  | some _, none => (.conflict, a)
  | some _, some _ => (.done, { a with session := none })

def publish (a : Account File Text Place) (f : File) (text : Text) :
    Verdict × Account File Text Place :=
  match a.files with
  | none => (.refused, a)
  | some files =>
      if files f = none then
        (.done, { a with files := some (Function.update files f (some text)) })
      else (.conflict, a)

def delete (a : Account File Text Place) (f : File) : Verdict × Account File Text Place :=
  match a.files with
  | none => (.refused, a)
  | some files =>
      if files f = none then (.conflict, a)
      else (.done, { a with files := some (Function.update files f none) })

/-! ## The files are those of the directory -/

variable {User : Type} [DecidableEq User] {m : Directory User File Text} {u : User}
  {a : Account File Text Place}

omit [DecidableEq File] in
theorem update_files (same : a.files = m u) : Function.update m u a.files = m := by
  rw [same, Function.update_eq_self]

omit [DecidableEq File] in
theorem register_files (same : a.files = m u) :
    a.register.1 = (m.register u).1 ∧
      Function.update m u a.register.2.files = (m.register u).2 := by
  rw [register, Directory.register, same]
  cases held : m u with
  | none => exact ⟨rfl, rfl⟩
  | some files => exact ⟨rfl, update_files same⟩

omit [DecidableEq File] in
theorem unregister_files (same : a.files = m u) :
    a.unregister.1 = (m.unregister u).1 ∧
      Function.update m u a.unregister.2.files = (m.unregister u).2 := by
  rw [unregister, Directory.unregister, same]
  cases held : m u with
  | none => exact ⟨rfl, update_files same⟩
  | some files => exact ⟨rfl, rfl⟩

theorem publish_files (same : a.files = m u) (f : File) (text : Text) :
    (a.publish f text).1 = (m.publish u f text).1 ∧
      Function.update m u (a.publish f text).2.files = (m.publish u f text).2 := by
  rw [publish, Directory.publish, same]
  cases held : m u with
  | none => exact ⟨rfl, update_files same⟩
  | some files =>
      by_cases free : files f = none
      · simp [free]
      · simp only [free, if_false, true_and]
        exact update_files same

theorem delete_files (same : a.files = m u) (f : File) :
    (a.delete f).1 = (m.delete u f).1 ∧
      Function.update m u (a.delete f).2.files = (m.delete u f).2 := by
  rw [delete, Directory.delete, same]
  cases held : m u with
  | none => exact ⟨rfl, update_files same⟩
  | some files =>
      by_cases free : files f = none
      · simp only [free, if_true, true_and]
        exact update_files same
      · simp [free]

omit [DecidableEq File] in
theorem connect_files (place : Place) : (a.connect place).2.files = a.files := by
  rw [connect]
  split <;> rfl

omit [DecidableEq File] in
theorem disconnect_files : a.disconnect.2.files = a.files := by
  rw [disconnect]
  split <;> rfl

/-! ## The session stays -/

omit [DecidableEq File] in
theorem register_session : a.register.2.session = a.session := by
  rw [register]
  split <;> rfl

omit [DecidableEq File] in
theorem unregister_session : a.unregister.2.session = a.session := by
  rw [unregister]
  split <;> rfl

theorem publish_session (f : File) (text : Text) :
    (a.publish f text).2.session = a.session := by
  rw [publish]
  split
  · rfl
  · split <;> rfl

theorem delete_session (f : File) : (a.delete f).2.session = a.session := by
  rw [delete]
  split
  · rfl
  · split <;> rfl

/-! ## The session changes when the answer says so -/

omit [DecidableEq File] in
theorem connect_session (a : Account File Text Place) (place : Place) :
    (a.connect place).1 = .done ∧ a.session = none ∧ (a.connect place).2.session = some place ∨
      (a.connect place).1 ≠ .done ∧ (a.connect place).2.session = a.session := by
  obtain ⟨files, session⟩ := a
  cases files with
  | none => exact Or.inr ⟨nofun, rfl⟩
  | some files =>
      cases session with
      | none => exact Or.inl ⟨rfl, rfl, rfl⟩
      | some other => exact Or.inr ⟨nofun, rfl⟩

omit [DecidableEq File] in
theorem disconnect_session (a : Account File Text Place) :
    a.disconnect.1 = .done ∧ a.disconnect.2.session = none ∨
      a.disconnect.1 ≠ .done ∧ a.disconnect.2.session = a.session := by
  obtain ⟨files, session⟩ := a
  cases files with
  | none => exact Or.inr ⟨nofun, rfl⟩
  | some files =>
      cases session with
      | none => exact Or.inr ⟨nofun, rfl⟩
      | some place => exact Or.inl ⟨rfl, rfl⟩

end Operations

end Account

end DistrApp
