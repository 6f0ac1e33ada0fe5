import Mathlib

/-!
# The directory service

What the server is for: every registered user has a set of published files,
each with a description.  The four operations that edit this map, over any
types of users, files and texts, and the verdicts a client should get.
-/

set_option autoImplicit false

namespace DistrApp

/-- The files of each registered user, with their descriptions. -/
abbrev Directory (User File Text : Type) := User → Option (File → Option Text)

namespace Directory

section Operations
variable {User File Text : Type} [DecidableEq User] [DecidableEq File]

inductive Verdict
  | done
  | refused
  | conflict
  deriving DecidableEq

def empty : Directory User File Text := fun _ => none

/-- A new user has no files; a registered one is refused. -/
def register (m : Directory User File Text) (u : User) : Verdict × Directory User File Text :=
  match m u with
  | none => (.done, Function.update m u (some fun _ => none))
  | some _ => (.refused, m)

def unregister (m : Directory User File Text) (u : User) : Verdict × Directory User File Text :=
  match m u with
  | none => (.refused, m)
  | some _ => (.done, Function.update m u none)

def publish (m : Directory User File Text) (u : User) (f : File) (text : Text) :
    Verdict × Directory User File Text :=
  match m u with
  | none => (.refused, m)
  | some files =>
      if files f = none then
        (.done, Function.update m u (some (Function.update files f (some text))))
      else (.conflict, m)

def delete (m : Directory User File Text) (u : User) (f : File) :
    Verdict × Directory User File Text :=
  match m u with
  | none => (.refused, m)
  | some files =>
      if files f = none then (.conflict, m)
      else (.done, Function.update m u (some (Function.update files f none)))

noncomputable def fileCount (files : File → Option Text) : Nat := {f | files f ≠ none}.ncard

theorem fileCount_eq_length {files : File → Option Text} {names : List File} (distinct : names.Nodup)
    (all : ∀ f, f ∈ names ↔ files f ≠ none) : fileCount files = names.length := by
  have same : {f | files f ≠ none} = (names.toFinset : Set File) := by
    ext f
    simp [all f]
  rw [fileCount, same, Set.ncard_coe_finset, List.toFinset_card_of_nodup distinct]

end Operations
end Directory
end DistrApp
