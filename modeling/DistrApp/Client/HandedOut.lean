import DistrApp.Library.FileTree
import DistrApp.Client.PeerRequest

/-!
# Which files the thread hands out

The path it opens is the shared directory, a slash, the name the other client
sent and `.txt`.  Nothing looks at the name, so `..` in it leads out of the
directory, and only a name that leads back in keeps the path inside.
-/

set_option autoImplicit false

namespace DistrApp.Client

open Text FileTree

/-- `open(path, 'rb')`; opening a directory raises an exception. -/
def fileAt (t : FileTree) (path : Bytes) : Option (Path × Bytes) :=
  match t.find path with
  | some (p, .file content) => some (p, content)
  | _ => none

/-- The files of a client, as the calls of the thread see them. -/
def diskOf (t : FileTree) : Disk where
  pathExists path := t.access path
  read path := (fileAt t path).map Prod.snd

/-- The file that a message has opened and sent, with its content. -/
def handedOut (t : FileTree) (fileDirectory message : Bytes) : Option (Path × Bytes) :=
  (lookedUp fileDirectory message).bind (fileAt t)

theorem fileAt_eq_some {t : FileTree} {path : Bytes} {p : Path} {content : Bytes} :
    fileAt t path = some (p, content) ↔ t.find path = some (p, .file content) := by
  rw [fileAt]
  split
  · rename_i found
    rw [found]
    simp
  · rename_i other
    exact ⟨fun absurdity => (Option.some_ne_none _ absurdity.symm).elim,
      fun found => absurd found (other p content)⟩

theorem handedOut_eq_some {t : FileTree} {fileDirectory message : Bytes} {p : Path}
    {content : Bytes} (sent : handedOut t fileDirectory message = some (p, content)) :
    ∃ fileName, (decodes message = true ∧ (ascii "GET_FILE").isPrefixOf message = true) ∧
      remoteFileName message = some fileName ∧
      t.find (pathOf fileDirectory fileName) = some (p, .file content) := by
  obtain ⟨path, looked, opened⟩ := Option.bind_eq_some_iff.mp sent
  rw [lookedUp] at looked
  split at looked
  · rename_i asks
    obtain ⟨fileName, named, rfl⟩ := Option.map_eq_some_iff.mp looked
    exact ⟨fileName, asks, named, fileAt_eq_some.mp opened⟩
  · cases looked

theorem answerTo_handedOut {t : FileTree} {fileDirectory message : Bytes} {p : Path}
    {content : Bytes} (sent : handedOut t fileDirectory message = some (p, content)) :
    answerTo (diskOf t) fileDirectory message =
      .send (ascii "0\x00") (sendChunks (chunks content)) := by
  obtain ⟨fileName, ⟨readable, asks⟩, named, found⟩ := handedOut_eq_some sent
  rw [answerTo, readable, if_neg (by decide), if_pos asks, named]
  simp [diskOf, sendFile, access_of_find found, fileAt_eq_some.mpr found]

theorem answerTo_of_none {t : FileTree} {fileDirectory message : Bytes}
    (nothing : handedOut t fileDirectory message = none) :
    answerTo (diskOf t) fileDirectory message ∈
      [.failed, .done, .send (ascii "2\x00") .done, .send (ascii "0\x00") .failed] := by
  rw [answerTo]
  split
  · simp
  · rename_i readable
    rw [Bool.not_eq_false] at readable
    split
    · rename_i asks
      rw [handedOut, lookedUp, if_pos ⟨readable, asks⟩] at nothing
      cases named : remoteFileName message with
      | none => simp
      | some fileName =>
          rw [named, Option.map_some, Option.bind_some] at nothing
          simp only [diskOf, sendFile, nothing, Option.map_none]
          split <;> simp
    · simp

/-! ## Inside the directory -/

def Inside (root p : Path) : Prop := root <+: p ∧ root ≠ p

/-- The levels that the `..` of the name lead up, once those after a name are
cancelled, are levels that the names after them lead down again. -/
def LeadsBack (root : Path) (fileName : Bytes) : Prop :=
  let reached := offset (components (fileName ++ ascii ".txt"))
  root.drop (root.length - reached.1) <+: reached.2

instance (root : Path) (fileName : Bytes) : Decidable (LeadsBack root fileName) := by
  unfold LeadsBack
  infer_instance

theorem pathOf_eq (fileDirectory fileName : Bytes) :
    pathOf fileDirectory fileName = fileDirectory ++ slash :: (fileName ++ ascii ".txt") := by
  rw [pathOf, show ascii "/" = [slash] by decide]
  simp

theorem walk_of_pathOf {t : FileTree} {fileDirectory fileName : Bytes} {root p : Path}
    (directory : t.resolve fileDirectory = some root)
    (resolved : t.resolve (pathOf fileDirectory fileName) = some p) :
    t.walk root (components (fileName ++ ascii ".txt")) = some p := by
  have named : fileDirectory ≠ [] := by
    rintro rfl
    cases directory
  rwa [pathOf_eq, resolve_append_slash t named, directory, Option.bind_some] at resolved

theorem components_txt_ne_nil (fileName : Bytes) : components (fileName ++ ascii ".txt") ≠ [] := by
  intro none_left
  have ends := eq_slash_of_components none_left (116 : UInt8)
    (List.mem_append_right _ (by decide))
  exact absurd ends (by decide)

section Directory
variable {t : FileTree} {fileDirectory message : Bytes} {root p : Path} {content : Bytes}

/-- What is opened and sent lies in the directory if and only if its name leads back. -/
theorem handedOut_inside_iff (directory : t.resolve fileDirectory = some root)
    (sent : handedOut t fileDirectory message = some (p, content)) :
    answerTo (diskOf t) fileDirectory message =
        .send (ascii "0\x00") (sendChunks (chunks content)) ∧
      (Inside root p ↔
        ∃ fileName, remoteFileName message = some fileName ∧ LeadsBack root fileName) := by
  refine ⟨answerTo_handedOut sent, ?_⟩
  obtain ⟨fileName, -, named, found⟩ := handedOut_eq_some sent
  obtain ⟨resolved, here⟩ := find_node found
  have walked := walk_of_pathOf directory resolved
  have different : root ≠ p := by
    rintro rfl
    obtain ⟨c, rest, shape⟩ := List.exists_cons_of_ne_nil (components_txt_ne_nil fileName)
    rw [shape, walk, here, if_neg (by simp)] at walked
    cases walked
  rw [Inside, and_iff_left different, offset_of_walk walked, prefix_offsetFrom, named]
  simp [LeadsBack]

theorem closed_empty : ∀ path ∈ (∅ : AList fun _ : Path => Node), path ≠ [] ∧
    ValidName (path.getLastD []) ∧ (path.dropLast = [] ∨
      (∅ : AList fun _ : Path => Node).lookup path.dropLast = some .dir) := fun _ inside =>
  absurd inside (AList.notMem_empty _)

def sharedNotes : FileTree :=
  ((({ cwd := [], nodes := ∅, closed := closed_empty } : FileTree).put [ascii "files"] .dir).put
    [ascii "files", ascii "notes.txt"] (.file (ascii "read me"))).put
    [ascii "secret.txt"] (.file (ascii "hidden"))

def asking (fileName : Bytes) : Bytes := ascii "GET_FILE\x003\x00ana\x00" ++ fileName ++ [0]

theorem handedOut_inside_iff_notes :
    Inside [ascii "files"] [ascii "files", ascii "notes.txt"] := by
  have sent : handedOut sharedNotes (ascii "files") (asking (ascii "../files/notes")) =
      some ([ascii "files", ascii "notes.txt"], ascii "read me") := by decide +kernel
  exact (handedOut_inside_iff (by decide +kernel) sent).2.mpr
    ⟨ascii "../files/notes", by decide +kernel, by decide +kernel⟩

theorem dotdot_leaves_directory :
    ¬ ∀ (t : FileTree) (fileDirectory message content : Bytes) (root p : Path),
      t.resolve fileDirectory = some root →
      handedOut t fileDirectory message = some (p, content) → Inside root p := by
  intro always
  have outside := always sharedNotes (ascii "files") (asking (ascii "../secret")) (ascii "hidden")
    [ascii "files"] [ascii "secret.txt"] (by decide +kernel) (by decide +kernel)
  exact absurd outside.1 (by decide)

theorem leadsBack_of_no_dotdot {fileName : Bytes}
    (down : dotdot ∉ components (fileName ++ ascii ".txt")) : LeadsBack root fileName := by
  rw [LeadsBack, offset_fst_of_no_dotdot down]
  simp

theorem handedOut_of_plain (directory : t.resolve fileDirectory = some root) {fileName : Bytes}
    (named : remoteFileName message = some fileName) (plain : slash ∉ fileName)
    (sent : handedOut t fileDirectory message = some (p, content)) :
    p = root ++ [fileName ++ ascii ".txt"] := by
  obtain ⟨fileName', -, named', found⟩ := handedOut_eq_some sent
  obtain rfl : fileName' = fileName := Option.some.inj (named'.symm.trans named)
  have walked := walk_of_pathOf directory (find_node found).1
  have one : components (fileName' ++ ascii ".txt") = [fileName' ++ ascii ".txt"] := by
    apply components_of_name
    · simp [ascii]
    · rw [List.mem_append, not_or]
      exact ⟨plain, by decide⟩
  have name : fileName' ++ ascii ".txt" ≠ dot ∧ fileName' ++ ascii ".txt" ≠ dotdot := by
    constructor
    all_goals
      intro same
      have sized := congrArg List.length same
      rw [List.length_append, show (ascii ".txt").length = 4 by rfl] at sized
      simp [dot, dotdot] at sized
  rw [one, walk] at walked
  split at walked
  · rw [walk, enter, if_neg name.1, if_neg name.2] at walked
    exact (Option.some.inj walked).symm
  · cases walked

end Directory

end DistrApp.Client
