import DistrApp.Server.Claves

/-!
# Where the paths of the server lead

The server runs in a directory next to `usuarios`; all its paths start with
`../usuarios/`.  A name that is a single valid component leads to the node of
that name in `usuarios`, and with a file name without slashes to a node in the
user's folder.
-/

set_option autoImplicit false

namespace DistrApp.Server

open Text FileTree

/-- The canonical path of `../usuarios`. -/
def usuarios (t : FileTree) : Path := t.cwd.dropLast ++ [ascii "usuarios"]

def tablePath (t : FileTree) : Path := usuarios t ++ [ascii "conectados.txt"]
def tempPath (t : FileTree) : Path := usuarios t ++ [ascii "temp.txt"]

/-- The content of conectados.txt, when it is a regular file. -/
def table (t : FileTree) : Option Bytes :=
  match t.node (tablePath t) with
  | some (.file content) => some content
  | _ => none

theorem table_eq_some {t : FileTree} {content : Bytes} :
    table t = some content ↔ t.node (tablePath t) = some (.file content) := by
  unfold table
  split
  · rename_i here
    simp [here]
  · rename_i other
    constructor
    · intro absurdity; contradiction
    · intro here; exact absurd here (other content)

/-- The working directory has not been removed. -/
def Rooted (t : FileTree) : Prop := t.node t.cwd = some .dir

instance (t : FileTree) : Decidable (Rooted t) :=
  inferInstanceAs (Decidable (t.node t.cwd = some .dir))

theorem components_folderOf (rest : Bytes) :
    components (folderOf rest) = [dotdot, ascii "usuarios"] ++ components rest := by
  have split : folderOf rest = ascii "../usuarios" ++ slash :: rest := by
    rw [folderOf, show ascii "../usuarios/" = ascii "../usuarios" ++ [slash] by decide]
    simp
  rw [split, components_append_slash]
  congr 1

theorem folderOf_ne_nil (rest : Bytes) : folderOf rest ≠ [] := by
  rw [folderOf, show ascii "../usuarios/" = 46 :: ascii "./usuarios/" by decide]
  simp

theorem folderOf_relative (rest : Bytes) : (folderOf rest).head? ≠ some slash := by
  rw [folderOf, show ascii "../usuarios/" = 46 :: ascii "./usuarios/" by decide]
  simp [slash]

theorem folderOf_length (rest : Bytes) : (folderOf rest).length = 12 + rest.length := by
  rw [folderOf, List.length_append, show (ascii "../usuarios/").length = 12 by decide]

theorem resolve_folderOf (t : FileTree) (rest : Bytes) :
    t.resolve (folderOf rest) =
      if Rooted t then t.walk (usuarios t) (components rest) else none := by
  rw [resolve, if_neg (folderOf_ne_nil rest), if_neg (folderOf_relative rest),
    components_folderOf]
  simp only [List.cons_append, List.nil_append, walk]
  by_cases rooted : t.node t.cwd = some .dir
  · have base : t.node t.cwd.dropLast = some .dir := node_dropLast (by rw [rooted]; simp)
    have up : enter t.cwd dotdot = t.cwd.dropLast := by simp [enter, dot, dotdot]
    have down : enter t.cwd.dropLast (ascii "usuarios") = usuarios t := by
      rw [enter, if_neg (by decide), if_neg (by decide), usuarios]
    rw [if_pos rooted, up, if_pos base, down, if_pos (show Rooted t from rooted)]
  · rw [if_neg rooted, if_neg (show ¬ Rooted t from rooted)]

theorem enter_valid {name : Name} (valid : ValidName name) (cur : Path) :
    enter cur name = cur ++ [name] := by
  rw [enter, if_neg valid.2.1, if_neg valid.2.2.1]

theorem components_valid {name : Name} (valid : ValidName name) : components name = [name] :=
  components_of_name valid.1 valid.2.2.2

theorem getLast?_folderOf_valid {name : Name} (valid : ValidName name) :
    (folderOf name).getLast? ≠ some slash := getLast?_name_ne_slash valid _

section OneName
variable {t : FileTree} {name : Name}

theorem resolve_name (rooted : Rooted t) (valid : ValidName name) :
    t.resolve (folderOf name) =
      if t.node (usuarios t) = some .dir then some (usuarios t ++ [name]) else none := by
  rw [resolve_folderOf, if_pos rooted, components_valid valid]
  simp only [walk, enter_valid valid]

theorem find_name (rooted : Rooted t) (valid : ValidName name) :
    t.find (folderOf name) =
      (t.node (usuarios t ++ [name])).map fun n => (usuarios t ++ [name], n) := by
  rw [find, resolve_name rooted valid]
  cases here : t.node (usuarios t ++ [name]) with
  | none => split <;> simp [here]
  | some n =>
      have inside := (node_parent (t := t) (by rw [here]; simp)).1
      simp [inside, here, getLast?_folderOf_valid valid]

theorem access_name (rooted : Rooted t) (valid : ValidName name) :
    t.access (folderOf name) = (t.node (usuarios t ++ [name])).isSome := by
  rw [FileTree.access, find_name rooted valid, Option.isSome_map]

theorem opendir_name (rooted : Rooted t) (valid : ValidName name) :
    t.opendir (folderOf name) =
      if t.node (usuarios t ++ [name]) = some .dir then some (t.entries (usuarios t ++ [name]))
      else none := by
  rw [FileTree.opendir, find_name rooted valid]
  cases t.node (usuarios t ++ [name]) with
  | none => simp
  | some n => cases n <;> simp

theorem creatable_name (rooted : Rooted t) (valid : ValidName name) :
    t.creatable (folderOf name) =
      if t.node (usuarios t) = some .dir ∧ t.node (usuarios t ++ [name]) ≠ some .dir then
        some (usuarios t ++ [name])
      else none := by
  rw [creatable, resolve_name rooted valid]
  by_cases inside : t.node (usuarios t) = some .dir
  · by_cases here : t.node (usuarios t ++ [name]) = some .dir <;>
      simp [inside, here, getLast?_folderOf_valid valid]
  · simp [inside]

end OneName

theorem conectadosTxt_eq : conectadosTxt = folderOf (ascii "conectados.txt") := by decide
theorem tempTxt_eq : tempTxt = folderOf (ascii "temp.txt") := by decide

theorem valid_conectados : ValidName (ascii "conectados.txt") := by decide
theorem valid_temp : ValidName (ascii "temp.txt") := by decide

theorem find_table {t : FileTree} (rooted : Rooted t) :
    t.find conectadosTxt = (t.node (tablePath t)).map fun n => (tablePath t, n) := by
  rw [conectadosTxt_eq]
  exact find_name rooted valid_conectados

theorem creatable_table {t : FileTree} (rooted : Rooted t) :
    t.creatable conectadosTxt =
      if t.node (usuarios t) = some .dir ∧ t.node (tablePath t) ≠ some .dir then
        some (tablePath t)
      else none := by
  rw [conectadosTxt_eq]
  exact creatable_name rooted valid_conectados

theorem creatable_temp {t : FileTree} (rooted : Rooted t) :
    t.creatable tempTxt =
      if t.node (usuarios t) = some .dir ∧ t.node (tempPath t) ≠ some .dir then
        some (tempPath t)
      else none := by
  rw [tempTxt_eq]
  exact creatable_name rooted valid_temp

/-- Every path of the server goes through the working directory. -/
theorem rooted_of_resolve {t : FileTree} {rest : Bytes} {p : Path}
    (resolved : t.resolve (folderOf rest) = some p) : Rooted t := by
  rw [resolve_folderOf] at resolved
  by_contra unrooted
  rw [if_neg unrooted] at resolved
  cases resolved

theorem rooted_of_access {t : FileTree} {rest : Bytes} (there : t.access (folderOf rest) = true) :
    Rooted t := by
  obtain ⟨⟨p, n⟩, found⟩ := Option.isSome_iff_exists.mp there
  exact rooted_of_resolve (find_node found).1

theorem openUpdate_table {t : FileTree} {p : Path} {text : Bytes} :
    t.openUpdate conectadosTxt = some (p, text) ↔
      Rooted t ∧ p = tablePath t ∧ table t = some text := by
  rw [table_eq_some]
  constructor
  · intro opened
    unfold openUpdate at opened
    split at opened
    · rename_i q content found
      cases opened
      have resolved := (find_node found).1
      rw [conectadosTxt_eq] at resolved
      have rooted := rooted_of_resolve resolved
      rw [find_table rooted] at found
      obtain ⟨n, here, shape⟩ := Option.map_eq_some_iff.mp found
      simp only [Prod.mk.injEq] at shape
      obtain ⟨rfl, rfl⟩ := shape
      exact ⟨rooted, rfl, here⟩
    · contradiction
  · rintro ⟨rooted, rfl, here⟩
    rw [openUpdate, find_table rooted, here]
    rfl

theorem usuarios_isDir {t : FileTree} {name : Name} {n : Node}
    (here : t.node (usuarios t ++ [name]) = some n) : t.node (usuarios t) = some .dir :=
  (node_parent (t := t) (by rw [here]; simp)).1

theorem usuarios_congr {t t' : FileTree} (same : t'.cwd = t.cwd) : usuarios t' = usuarios t := by
  rw [usuarios, usuarios, same]

theorem tablePath_congr {t t' : FileTree} (same : t'.cwd = t.cwd) : tablePath t' = tablePath t := by
  rw [tablePath, tablePath, usuarios_congr same]

theorem tempPath_congr {t t' : FileTree} (same : t'.cwd = t.cwd) : tempPath t' = tempPath t := by
  rw [tempPath, tempPath, usuarios_congr same]

theorem rooted_congr {t t' : FileTree} (same : SameDirs t t') : Rooted t' ↔ Rooted t := by
  rw [Rooted, Rooted, same.cwd, same.dirs]

theorem tempPath_ne_tablePath (t : FileTree) : tempPath t ≠ tablePath t := by
  intro same
  have names := List.append_cancel_left same
  exact absurd names (by decide)

end DistrApp.Server
