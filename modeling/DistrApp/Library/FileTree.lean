import DistrApp.Library.Text

/-!
# A POSIX directory tree

Absolute canonical paths are lists of names.  A tree maps each of them to a
directory or to a regular file with its bytes; there are no links.  The
structure itself says that every node lies in a directory and has a name that
a directory entry can have, so a tree with an orphan cannot be built.

The calls take the path as a C string and resolve it as the kernel does: each
component is looked up in an existing directory, `.` and `..` and repeated
slashes included, and a trailing slash asks for a directory.
-/

set_option autoImplicit false

namespace DistrApp

open Text

abbrev Name := Bytes
abbrev Path := List Name

def slash : UInt8 := 47
def dot : Name := [46]
def dotdot : Name := [46, 46]

def ValidName (name : Name) : Prop :=
  name ≠ [] ∧ name ≠ dot ∧ name ≠ dotdot ∧ slash ∉ name

instance : DecidablePred ValidName := fun name =>
  inferInstanceAs (Decidable (name ≠ [] ∧ name ≠ dot ∧ name ≠ dotdot ∧ slash ∉ name))

inductive Node where
  | dir
  | file (content : Bytes)
  deriving DecidableEq

structure FileTree where
  cwd : Path
  nodes : AList fun _ : Path => Node
  /-- The root is not stored; it is always there. -/
  closed : ∀ path ∈ nodes, path ≠ [] ∧ ValidName (path.getLastD []) ∧
    (path.dropLast = [] ∨ nodes.lookup path.dropLast = some .dir)

namespace FileTree

def node (t : FileTree) (path : Path) : Option Node :=
  if path = [] then some .dir else t.nodes.lookup path

@[simp] theorem node_nil (t : FileTree) : t.node [] = some .dir := rfl

theorem node_parent {t : FileTree} {parent : Path} {name : Name}
    (present : t.node (parent ++ [name]) ≠ none) :
    t.node parent = some .dir ∧ ValidName name := by
  have member : parent ++ [name] ∈ t.nodes := by
    rw [node, if_neg (by simp)] at present
    by_contra absent
    exact present (AList.lookup_eq_none.mpr absent)
  obtain ⟨_, valid, inside⟩ := t.closed _ member
  rw [List.dropLast_concat] at inside
  refine ⟨?_, by simpa using valid⟩
  by_cases root : parent = []
  · simp [node, root]
  · rw [node, if_neg root]
    exact inside.resolve_left root

theorem node_dropLast {t : FileTree} {path : Path} (present : t.node path ≠ none) :
    t.node path.dropLast = some .dir := by
  rcases List.eq_nil_or_concat path with rfl | ⟨parent, name, rfl⟩
  · rfl
  · rw [List.concat_eq_append] at present ⊢
    rw [List.dropLast_concat]
    exact (node_parent present).1

/-! ## Directory entries -/

def entryIn (path : Path) (stored : Σ _ : Path, Node) : Option (Name × Node) :=
  if stored.1 ≠ [] ∧ stored.1.dropLast = path then some (stored.1.getLastD [], stored.2) else none

/-- What `readdir` lists, `.` and `..` left out. -/
def entries (t : FileTree) (path : Path) : List (Name × Node) :=
  t.nodes.entries.filterMap (entryIn path)

theorem entryIn_eq_some {path : Path} {stored : Σ _ : Path, Node} {name : Name} {n : Node} :
    entryIn path stored = some (name, n) ↔ stored = ⟨path ++ [name], n⟩ := by
  obtain ⟨p, m⟩ := stored
  unfold entryIn
  rcases List.eq_nil_or_concat p with rfl | ⟨parent, last, rfl⟩
  · simp
  · rw [List.concat_eq_append]
    simp only [ne_eq, List.append_eq_nil_iff, List.cons_ne_self, and_false, not_false_eq_true,
      List.dropLast_concat, true_and, Sigma.mk.injEq, heq_eq_eq, List.getLastD_concat]
    constructor
    · intro listed
      split at listed
      · rename_i here
        simp only [Option.some.injEq, Prod.mk.injEq] at listed
        exact ⟨by rw [here, listed.1], listed.2⟩
      · contradiction
    · rintro ⟨same, rfl⟩
      obtain ⟨rfl, inner⟩ := List.append_inj' same rfl
      simp only [List.cons.injEq, and_true] at inner
      simp [inner]

theorem mem_entries {t : FileTree} {path : Path} {name : Name} {n : Node} :
    (name, n) ∈ t.entries path ↔ t.node (path ++ [name]) = some n := by
  rw [entries, List.mem_filterMap, node, if_neg (by simp)]
  constructor
  · rintro ⟨stored, member, listed⟩
    rw [entryIn_eq_some] at listed
    subst listed
    exact AList.mem_lookup_iff.mpr member
  · intro found
    exact ⟨⟨path ++ [name], n⟩, AList.mem_lookup_iff.mp found, entryIn_eq_some.mpr rfl⟩

theorem entries_names_nodup (t : FileTree) (path : Path) :
    ((t.entries path).map Prod.fst).Nodup := by
  have distinct : t.nodes.entries.Pairwise (fun a b => a.1 ≠ b.1) :=
    List.pairwise_map.mp t.nodes.nodupKeys
  rw [List.Nodup, List.pairwise_map, entries]
  apply distinct.filterMap
  intro a b different x fromA y fromB same
  obtain ⟨xn, xv⟩ := x
  obtain ⟨yn, yv⟩ := y
  rw [entryIn_eq_some.mp fromA, entryIn_eq_some.mp fromB] at different
  exact different (by simpa using same)

/-! ## Changing one node -/

/-- A valid name in an existing directory, not itself a directory. -/
def Placeable (t : FileTree) (path : Path) : Prop :=
  path ≠ [] ∧ ValidName (path.getLastD []) ∧ t.node path.dropLast = some .dir ∧
    t.node path ≠ some .dir

instance (t : FileTree) (path : Path) : Decidable (t.Placeable path) :=
  inferInstanceAs (Decidable (path ≠ [] ∧ ValidName (path.getLastD []) ∧
    t.node path.dropLast = some .dir ∧ t.node path ≠ some .dir))

def put (t : FileTree) (path : Path) (n : Node) : FileTree :=
  if fits : t.Placeable path then
    { cwd := t.cwd
      nodes := t.nodes.insert path n
      closed := by
        obtain ⟨nonempty, valid, inside, notDir⟩ := fits
        have keeps : ∀ q, (q = [] ∨ t.nodes.lookup q = some .dir) →
            (q = [] ∨ (t.nodes.insert path n).lookup q = some .dir) := by
          intro q here
          rcases here with root | here
          · exact Or.inl root
          · by_cases same : q = path
            · subst same
              exact absurd (by rw [node, if_neg nonempty]; exact here) notDir
            · exact Or.inr (by rw [AList.lookup_insert_ne same]; exact here)
        intro q member
        rcases AList.mem_insert _ |>.mp member with rfl | member
        · refine ⟨nonempty, valid, keeps _ ?_⟩
          by_cases root : q.dropLast = []
          · exact Or.inl root
          · rw [node, if_neg root] at inside
            exact Or.inr inside
        · obtain ⟨nonempty', valid', inside'⟩ := t.closed q member
          exact ⟨nonempty', valid', keeps _ inside'⟩ }
  else t

def Removable (t : FileTree) (path : Path) : Prop := path ≠ [] ∧ t.entries path = []

instance (t : FileTree) (path : Path) : Decidable (t.Removable path) :=
  inferInstanceAs (Decidable (path ≠ [] ∧ t.entries path = []))

def erase (t : FileTree) (path : Path) : FileTree :=
  if free : t.Removable path then
    { cwd := t.cwd
      nodes := t.nodes.erase path
      closed := by
        intro q member
        obtain ⟨different, member⟩ := AList.mem_erase.mp member
        obtain ⟨nonempty, valid, inside⟩ := t.closed q member
        refine ⟨nonempty, valid, inside.imp_right fun here => ?_⟩
        rw [AList.lookup_erase_ne ?_]
        · exact here
        · rintro parent
          obtain ⟨n, stored⟩ := Option.isSome_iff_exists.mp (AList.lookup_isSome.mpr member)
          have whole : q.dropLast ++ [q.getLastD []] = q := by
            obtain ⟨init, last, rfl⟩ := List.eq_nil_or_concat q |>.resolve_left nonempty
            simp
          have listed : (q.getLastD [], n) ∈ t.entries path := by
            rw [mem_entries, ← parent, whole, node, if_neg nonempty]
            exact stored
          rw [free.2] at listed
          cases listed }
  else t

@[simp] theorem put_cwd (t : FileTree) (path : Path) (n : Node) : (t.put path n).cwd = t.cwd := by
  unfold put; split <;> rfl

@[simp] theorem erase_cwd (t : FileTree) (path : Path) : (t.erase path).cwd = t.cwd := by
  unfold erase; split <;> rfl

theorem node_put_self {t : FileTree} {path : Path} (fits : t.Placeable path) (n : Node) :
    (t.put path n).node path = some n := by
  rw [put, dif_pos fits, node, if_neg fits.1]
  exact AList.lookup_insert _

theorem node_put_ne (t : FileTree) {path q : Path} (n : Node) (different : q ≠ path) :
    (t.put path n).node q = t.node q := by
  unfold put
  split
  · unfold node
    split
    · rfl
    · exact AList.lookup_insert_ne different
  · rfl

theorem node_erase_self {t : FileTree} {path : Path} (free : t.Removable path) :
    (t.erase path).node path = none := by
  rw [erase, dif_pos free, node, if_neg free.1]
  exact AList.lookup_erase _ _

theorem node_erase_ne (t : FileTree) {path q : Path} (different : q ≠ path) :
    (t.erase path).node q = t.node q := by
  unfold erase
  split
  · unfold node
    split
    · rfl
    · exact AList.lookup_erase_ne different
  · rfl

theorem placeable_of_file {t : FileTree} {path : Path} {content : Bytes}
    (here : t.node path = some (.file content)) : t.Placeable path := by
  rcases List.eq_nil_or_concat path with rfl | ⟨parent, name, rfl⟩
  · simp at here
  · rw [List.concat_eq_append] at here ⊢
    obtain ⟨inside, valid⟩ := @node_parent t parent name (by rw [here]; simp)
    exact ⟨by simp, by simpa using valid, by simpa using inside, by rw [here]; simp⟩

theorem removable_of_file {t : FileTree} {path : Path} {content : Bytes}
    (here : t.node path = some (.file content)) : t.Removable path := by
  refine ⟨fun root => by simp [root] at here, ?_⟩
  rw [List.eq_nil_iff_forall_not_mem]
  rintro ⟨name, n⟩ listed
  rw [mem_entries] at listed
  have inside := (node_parent (t := t) (by rw [listed]; simp)).1
  rw [here] at inside
  cases inside

theorem put_nodes {t : FileTree} {path : Path} (fits : t.Placeable path) (n : Node) :
    (t.put path n).nodes = t.nodes.insert path n := by
  rw [put, dif_pos fits]

theorem erase_nodes {t : FileTree} {path : Path} (free : t.Removable path) :
    (t.erase path).nodes = t.nodes.erase path := by
  rw [erase, dif_pos free]

theorem eq_of_nodes {t t' : FileTree} (cwd : t.cwd = t'.cwd) (nodes : t.nodes = t'.nodes) :
    t = t' := by
  obtain ⟨_, _, _⟩ := t
  obtain ⟨_, _, _⟩ := t'
  cases cwd
  cases nodes
  rfl

theorem put_put {t : FileTree} {path : Path} (fits : t.Placeable path) (first last : Bytes) :
    (t.put path (.file first)).put path (.file last) = t.put path (.file last) := by
  have again := placeable_of_file (node_put_self fits (.file first))
  refine eq_of_nodes (by simp only [put_cwd]) ?_
  rw [put_nodes again, put_nodes fits, put_nodes fits, AList.insert_insert]

theorem erase_put {t : FileTree} {path : Path} (fits : t.Placeable path)
    (absent : t.node path = none) (content : Bytes) :
    (t.put path (.file content)).erase path = t := by
  have free := removable_of_file (node_put_self fits (.file content))
  rw [node, if_neg fits.1, AList.lookup_eq_none] at absent
  refine eq_of_nodes (by simp only [erase_cwd, put_cwd]) (AList.ext ?_)
  rw [erase_nodes free, put_nodes fits]
  show List.kerase path (t.nodes.insert path (.file content)).entries = t.nodes.entries
  rw [AList.entries_insert_of_notMem absent]
  exact List.kerase_cons_eq rfl

/-! ## Path resolution -/

/-- The names between the slashes; repeated slashes count once. -/
def components (path : Bytes) : List Name := (path.splitOn slash).filter (· ≠ [])

theorem components_append_slash (left right : Bytes) :
    components (left ++ slash :: right) = components left ++ components right := by
  rw [components, List.splitOn_append_cons_self, List.filter_append]
  rfl

theorem components_of_name {name : Name} (nonempty : name ≠ []) (plain : slash ∉ name) :
    components name = [name] := by
  simp [components, List.splitOn_eq_singleton plain, nonempty]

theorem slash_notMem_splitOn (path : Bytes) : ∀ part ∈ path.splitOn slash, slash ∉ part := by
  induction path with
  | nil => simp
  | cons b path ih =>
      rw [List.splitOn_cons_eq_if_modifyHead]
      by_cases cut : b = slash
      · simpa [cut] using ih
      · obtain ⟨first, others, shape⟩ := List.exists_cons_of_ne_nil (List.splitOn_ne_nil slash path)
        simp only [beq_iff_eq, cut, if_false, shape, List.modifyHead_cons, List.mem_cons]
        rw [shape] at ih
        rintro part (rfl | member)
        · rw [List.mem_cons, not_or]
          exact ⟨fun same => cut same.symm, ih first List.mem_cons_self⟩
        · exact ih part (List.mem_cons_of_mem _ member)

theorem mem_components {path : Bytes} {c : Name} (member : c ∈ components path) :
    c ≠ [] ∧ slash ∉ c := by
  rw [components, List.mem_filter] at member
  exact ⟨by simpa using member.2, slash_notMem_splitOn path c member.1⟩

def enter (cur : Path) (c : Name) : Path :=
  if c = dot then cur else if c = dotdot then cur.dropLast else cur ++ [c]

/-- Each component is looked up in a directory; the last one need not exist. -/
def walk (t : FileTree) : Path → List Name → Option Path
  | cur, [] => some cur
  | cur, c :: rest => if t.node cur = some .dir then t.walk (enter cur c) rest else none

def resolve (t : FileTree) (path : Bytes) : Option Path :=
  if path = [] then none
  else t.walk (if path.head? = some slash then [] else t.cwd) (components path)

theorem walk_append (t : FileTree) (cur : Path) (left right : List Name) :
    t.walk cur (left ++ right) = (t.walk cur left).bind fun p => t.walk p right := by
  induction left generalizing cur with
  | nil => rfl
  | cons c left ih =>
      simp only [List.cons_append, walk]
      split
      · exact ih _
      · rfl

theorem enter_dir {t : FileTree} {cur : Path} {c : Name} (here : t.node cur = some .dir)
    (named : c ≠ [] ∧ slash ∉ c) :
    t.node (enter cur c) = some .dir ∨
      enter cur c = cur ++ [c] ∧ ValidName c := by
  unfold enter
  split
  · exact Or.inl here
  · rename_i notDot
    split
    · exact Or.inl (node_dropLast (by rw [here]; simp))
    · rename_i notDotdot
      exact Or.inr ⟨rfl, named.1, notDot, notDotdot, named.2⟩

theorem walk_reaches {t : FileTree} {cur p : Path} {cs : List Name}
    (named : ∀ c ∈ cs, c ≠ [] ∧ slash ∉ c) (some_comp : cs ≠ []) (walked : t.walk cur cs = some p) :
    t.node p = some .dir ∨
      ∃ parent name, p = parent ++ [name] ∧ ValidName name ∧ t.node parent = some .dir := by
  induction cs generalizing cur with
  | nil => exact absurd rfl some_comp
  | cons c rest ih =>
      simp only [walk] at walked
      split at walked
      · rename_i here
        cases rest with
        | nil =>
            simp only [walk, Option.some.injEq] at walked
            subst walked
            rcases enter_dir here (named c List.mem_cons_self) with dir | ⟨shape, valid⟩
            · exact Or.inl dir
            · exact Or.inr ⟨cur, c, shape, valid, here⟩
        | cons next rest =>
            exact ih (fun d member => named d (List.mem_cons_of_mem _ member)) (by simp) walked
      · contradiction

theorem splitOn_nil_of_components {path : Bytes} (none_left : components path = []) :
    path = [] ∨ path.head? = some slash := by
  cases path with
  | nil => exact Or.inl rfl
  | cons b path =>
      right
      by_contra other
      have plain : b ≠ slash := by simpa using other
      have first : ∃ part ∈ (b :: path).splitOn slash, part ≠ [] := by
        rw [List.splitOn_cons_eq_if_modifyHead]
        obtain ⟨first, others, shape⟩ := List.exists_cons_of_ne_nil (List.splitOn_ne_nil slash path)
        exact ⟨b :: first, by simp [plain, shape], by simp⟩
      obtain ⟨part, member, nonempty⟩ := first
      have listed : part ∈ components (b :: path) := by
        simp [components, member, nonempty]
      rw [none_left] at listed
      cases listed

theorem components_cons_slash (path : Bytes) : components (slash :: path) = components path :=
  components_append_slash [] path

theorem eq_slash_of_components {path : Bytes} (none_left : components path = []) :
    ∀ b ∈ path, b = slash := by
  induction path with
  | nil => simp
  | cons b path ih =>
      have first : b = slash := by
        simpa using (splitOn_nil_of_components none_left).resolve_left (List.cons_ne_nil b path)
      rw [first, components_cons_slash] at none_left
      rw [List.forall_mem_cons]
      exact ⟨first, ih none_left⟩

theorem placeable_of_resolve {t : FileTree} {path : Bytes} {p : Path}
    (resolved : t.resolve path = some p) (notDir : t.node p ≠ some .dir) : t.Placeable p := by
  unfold resolve at resolved
  split at resolved
  · contradiction
  · rename_i nonempty
    by_cases comps : components path = []
    · rcases splitOn_nil_of_components comps with empty | absolute
      · exact absurd empty nonempty
      · simp only [absolute, if_true, comps, walk, Option.some.injEq] at resolved
        subst resolved
        exact absurd (node_nil t) notDir
    · rcases walk_reaches (fun c => mem_components) comps resolved with dir | ⟨parent, name, shape⟩
      · exact absurd dir notDir
      · obtain ⟨rfl, valid, inside⟩ := shape
        exact ⟨by simp, by simpa using valid, by simpa using inside, notDir⟩

/-- An existing node; a trailing slash asks for a directory. -/
def find (t : FileTree) (path : Bytes) : Option (Path × Node) :=
  (t.resolve path).bind fun p => (t.node p).bind fun n =>
    if path.getLast? = some slash ∧ n ≠ .dir then none else some (p, n)

theorem find_node {t : FileTree} {path : Bytes} {p : Path} {n : Node}
    (found : t.find path = some (p, n)) : t.resolve path = some p ∧ t.node p = some n := by
  obtain ⟨q, resolved, found⟩ := Option.bind_eq_some_iff.mp found
  obtain ⟨m, here, found⟩ := Option.bind_eq_some_iff.mp found
  split at found
  · contradiction
  · simp only [Option.some.injEq, Prod.mk.injEq] at found
    obtain ⟨rfl, rfl⟩ := found
    exact ⟨resolved, here⟩

/-! ## The calls

Each returns `none` where the call fails. -/

/-- `access(path, F_OK) == 0` -/
def access (t : FileTree) (path : Bytes) : Bool := (t.find path).isSome

def opendir (t : FileTree) (path : Bytes) : Option (List (Name × Node)) :=
  match t.find path with
  | some (p, .dir) => some (t.entries p)
  | _ => none

theorem access_of_find {t : FileTree} {path : Bytes} {p : Path} {n : Node}
    (found : t.find path = some (p, n)) : t.access path = true := by
  rw [access, found]
  rfl

theorem find_of_opendir {t : FileTree} {path : Bytes} {listed : List (Name × Node)}
    (opened : t.opendir path = some listed) :
    ∃ p, t.find path = some (p, .dir) ∧ listed = t.entries p := by
  unfold opendir at opened
  split at opened
  · rename_i p found
    exact ⟨p, found, (Option.some.inj opened).symm⟩
  · cases opened

def mkdir (t : FileTree) (path : Bytes) : Option FileTree :=
  match t.resolve path with
  | some p => if t.node p = none then some (t.put p .dir) else none
  | none => none

/-- The last component may be neither `.` nor `..`, and the directory is empty. -/
def rmdir (t : FileTree) (path : Bytes) : Option FileTree :=
  match t.find path with
  | some (p, .dir) =>
      if (components path).getLast? ≠ some dot ∧ (components path).getLast? ≠ some dotdot ∧
          t.Removable p then
        some (t.erase p)
      else none
  | _ => none

/-- `remove` unlinks a file and falls back to `rmdir` for a directory. -/
def remove (t : FileTree) (path : Bytes) : Option FileTree :=
  match t.find path with
  | some (p, .file _) => some (t.erase p)
  | some (_, .dir) => t.rmdir path
  | none => none

/-- `rename` of a regular file; the calls on directories are left out. -/
def rename (t : FileTree) (old new : Bytes) : Option FileTree :=
  match t.find old, t.resolve new with
  | some (p, .file content), some q =>
      if t.node q = some .dir ∨ new.getLast? = some slash then none
      else if p = q then some t
      else some ((t.erase p).put q (.file content))
  | _, _ => none

/-- `open(path, O_RDONLY)`: a directory opens too, but reads from it fail. -/
def openRead (t : FileTree) (path : Bytes) : Option (Path × Bytes) :=
  match t.find path with
  | some (p, .file content) => some (p, content)
  | some (p, .dir) => some (p, [])
  | none => none

/-- `open(path, O_RDWR)` -/
def openUpdate (t : FileTree) (path : Bytes) : Option (Path × Bytes) :=
  match t.find path with
  | some (p, .file content) => some (p, content)
  | _ => none

/-- Where `O_CREAT` can open a regular file: not at a directory or after a slash. -/
def creatable (t : FileTree) (path : Bytes) : Option Path :=
  match t.resolve path with
  | some p => if t.node p = some .dir ∨ path.getLast? = some slash then none else some p
  | none => none

/-- `open(path, O_WRONLY | O_CREAT | O_TRUNC)` -/
def openWrite (t : FileTree) (path : Bytes) : Option (Path × FileTree) :=
  (t.creatable path).map fun p => (p, t.put p (.file []))

/-- `open(path, O_RDWR | O_CREAT | O_APPEND)`, with the bytes already there. -/
def openAppend (t : FileTree) (path : Bytes) : Option (Path × Bytes × FileTree) :=
  (t.creatable path).map fun p =>
    match t.node p with
    | some (.file content) => (p, content, t)
    | _ => (p, [], t.put p (.file []))

/-- A write at the end of the regular file at `p`. -/
def append (t : FileTree) (p : Path) (text : Bytes) : FileTree :=
  match t.node p with
  | some (.file content) => t.put p (.file (content ++ text))
  | _ => t

theorem resolve_append_slash (t : FileTree) {path : Bytes} (nonempty : path ≠ []) (rest : Bytes) :
    t.resolve (path ++ slash :: rest) =
      (t.resolve path).bind fun p => t.walk p (components rest) := by
  obtain ⟨b, path, rfl⟩ := List.exists_cons_of_ne_nil nonempty
  simp only [resolve, List.cons_append, reduceCtorEq, if_false, List.head?_cons]
  rw [← List.cons_append, components_append_slash, walk_append]
  rfl

theorem getLast?_name_ne_slash {name : Name} (valid : ValidName name) (path : Bytes) :
    (path ++ name).getLast? ≠ some slash := by
  obtain ⟨init, last, shape⟩ := (List.eq_nil_or_concat name).resolve_left valid.1
  rw [List.concat_eq_append] at shape
  subst shape
  have plain := valid.2.2.2
  simp only [List.mem_append, List.mem_singleton, not_or] at plain
  rw [← List.append_assoc, List.getLast?_concat]
  exact fun same => plain.2 (Option.some.inj same).symm

theorem find_child {t : FileTree} {path : Bytes} {p : Path} {name : Name} {n : Node}
    (nonempty : path ≠ []) (resolved : t.resolve path = some p)
    (here : t.node (p ++ [name]) = some n) :
    t.find (path ++ [slash] ++ name) = some (p ++ [name], n) := by
  obtain ⟨inside, valid⟩ := @node_parent t p name (by rw [here]; simp)
  have target : t.resolve (path ++ [slash] ++ name) = some (p ++ [name]) := by
    rw [List.append_assoc, List.singleton_append, resolve_append_slash t nonempty, resolved,
      components_of_name valid.1 valid.2.2.2]
    simp [walk, inside, enter, valid.2.1, valid.2.2.1]
  have last := getLast?_name_ne_slash valid (path ++ [slash])
  rw [find, target, Option.bind_some, here, Option.bind_some, if_neg fun ends => last ends.1]

/-! ## What each call changes -/

structure SameDirs (t t' : FileTree) : Prop where
  cwd : t'.cwd = t.cwd
  dirs : ∀ q, t'.node q = some .dir ↔ t.node q = some .dir

theorem SameDirs.refl (t : FileTree) : SameDirs t t := ⟨rfl, fun _ => Iff.rfl⟩

theorem SameDirs.trans {t t' t'' : FileTree} (first : SameDirs t t') (second : SameDirs t' t'') :
    SameDirs t t'' :=
  ⟨second.cwd.trans first.cwd, fun q => (second.dirs q).trans (first.dirs q)⟩

theorem SameDirs.walk {t t' : FileTree} (same : SameDirs t t') (cur : Path) (cs : List Name) :
    t'.walk cur cs = t.walk cur cs := by
  induction cs generalizing cur with
  | nil => rfl
  | cons c rest ih => simp only [FileTree.walk, same.dirs cur, ih]

theorem SameDirs.resolve {t t' : FileTree} (same : SameDirs t t') (path : Bytes) :
    t'.resolve path = t.resolve path := by
  simp only [FileTree.resolve, same.cwd, same.walk]

theorem SameDirs.find_dir {t t' : FileTree} (same : SameDirs t t') {path : Bytes} {p : Path}
    (found : t.find path = some (p, .dir)) : t'.find path = some (p, .dir) := by
  obtain ⟨resolved, dir⟩ := find_node found
  rw [find, same.resolve, resolved, Option.bind_some, (same.dirs p).mpr dir, Option.bind_some,
    if_neg fun ends => ends.2 rfl]

theorem erase_file_sameDirs {t : FileTree} {p : Path} {content : Bytes}
    (here : t.node p = some (.file content)) : SameDirs t (t.erase p) := by
  refine ⟨erase_cwd t p, fun q => ?_⟩
  by_cases same : q = p
  · subst same
    rw [node_erase_self (removable_of_file here), here]
    simp
  · rw [node_erase_ne t same]

structure ChangesOnly (p : Path) (t t' : FileTree) : Prop where
  cwd : t'.cwd = t.cwd
  others : ∀ q, q ≠ p → t'.node q = t.node q

theorem ChangesOnly.refl (p : Path) (t : FileTree) : ChangesOnly p t t := ⟨rfl, fun _ _ => rfl⟩

theorem ChangesOnly.trans {p : Path} {t t' t'' : FileTree} (first : ChangesOnly p t t')
    (second : ChangesOnly p t' t'') : ChangesOnly p t t'' :=
  ⟨second.cwd.trans first.cwd,
    fun q different => (second.others q different).trans (first.others q different)⟩

theorem ChangesOnly.same_or {t t' : FileTree} {p : Path} (only : ChangesOnly p t t') (q : Path) :
    t'.node q = t.node q ∨ q = p := by
  by_cases same : q = p
  · exact Or.inr same
  · exact Or.inl (only.others q same)

theorem put_changesOnly (t : FileTree) (p : Path) (n : Node) : ChangesOnly p t (t.put p n) :=
  ⟨put_cwd t p n, fun _ different => node_put_ne t n different⟩

theorem erase_changesOnly (t : FileTree) (p : Path) : ChangesOnly p t (t.erase p) :=
  ⟨erase_cwd t p, fun _ different => node_erase_ne t different⟩

theorem mkdir_some {t t' : FileTree} {path : Bytes} (made : t.mkdir path = some t') :
    ∃ p, t.resolve path = some p ∧ t.node p = none ∧ t'.node p = some .dir ∧
      ChangesOnly p t t' := by
  unfold mkdir at made
  split at made
  · rename_i p resolved
    split at made
    · rename_i absent
      cases made
      have fits := placeable_of_resolve resolved (by rw [absent]; simp)
      exact ⟨p, resolved, absent, node_put_self fits .dir, put_changesOnly t p .dir⟩
    · contradiction
  · contradiction

theorem rmdir_some {t t' : FileTree} {path : Bytes} (removed : t.rmdir path = some t') :
    ∃ p, t.find path = some (p, .dir) ∧ t.entries p = [] ∧ t'.node p = none ∧
      ChangesOnly p t t' := by
  unfold rmdir at removed
  split at removed
  · rename_i p found
    split at removed
    · rename_i free
      cases removed
      exact ⟨p, found, free.2.2.2, node_erase_self free.2.2, erase_changesOnly t p⟩
    · contradiction
  · contradiction

theorem remove_some {t t' : FileTree} {path : Bytes} (removed : t.remove path = some t') :
    ∃ p n, t.find path = some (p, n) ∧ (n = .dir → t.entries p = []) ∧ t'.node p = none ∧
      ChangesOnly p t t' := by
  unfold remove at removed
  split at removed
  · rename_i p content found
    cases removed
    have free := removable_of_file (find_node found).2
    exact ⟨p, _, found, fun dir => Node.noConfusion dir, node_erase_self free,
      erase_changesOnly t p⟩
  · rename_i p found
    obtain ⟨q, found', empty, gone, only⟩ := rmdir_some removed
    rw [found] at found'
    cases found'
    exact ⟨p, .dir, found, fun _ => empty, gone, only⟩
  · contradiction

theorem rename_some {t t' : FileTree} {old new : Bytes} (renamed : t.rename old new = some t') :
    ∃ p q content, t.find old = some (p, .file content) ∧ t.resolve new = some q ∧
      t.node q ≠ some .dir ∧
      (p = q ∧ t' = t ∨
        p ≠ q ∧ t'.cwd = t.cwd ∧ t'.node q = some (.file content) ∧ t'.node p = none ∧
          ∀ r, r ≠ p → r ≠ q → t'.node r = t.node r) := by
  unfold rename at renamed
  split at renamed
  · rename_i p content q found resolved
    split at renamed
    · contradiction
    · rename_i free
      rw [not_or] at free
      refine ⟨p, q, content, found, resolved, free.1, ?_⟩
      split at renamed
      · rename_i same
        exact Or.inl ⟨same, (Option.some.inj renamed).symm⟩
      · rename_i apart
        cases renamed
        have here := (find_node found).2
        have dirs := erase_file_sameDirs here
        obtain ⟨nonempty, valid, inside, _⟩ := placeable_of_resolve resolved free.1
        have fits : (t.erase p).Placeable q := by
          refine ⟨nonempty, valid, (dirs.dirs _).mpr inside, ?_⟩
          rw [ne_eq, dirs.dirs]
          exact free.1
        refine Or.inr ⟨apart, by simp, node_put_self fits _, ?_, ?_⟩
        · rw [node_put_ne _ _ apart, node_erase_self (removable_of_file here)]
        · intro r notOld notNew
          rw [node_put_ne _ _ notNew, node_erase_ne _ notOld]
  · contradiction

theorem creatable_some {t : FileTree} {path : Bytes} {p : Path}
    (free : t.creatable path = some p) :
    t.resolve path = some p ∧ t.node p ≠ some .dir ∧ t.Placeable p := by
  unfold creatable at free
  split at free
  · rename_i q resolved
    split at free
    · contradiction
    · rename_i notDir
      cases free
      rw [not_or] at notDir
      exact ⟨resolved, notDir.1, placeable_of_resolve resolved notDir.1⟩
  · contradiction

theorem openWrite_some {t t' : FileTree} {path : Bytes} {p : Path}
    (opened : t.openWrite path = some (p, t')) :
    t.creatable path = some p ∧ t'.node p = some (.file []) ∧ ChangesOnly p t t' := by
  obtain ⟨q, free, shape⟩ := Option.map_eq_some_iff.mp opened
  cases shape
  exact ⟨free, node_put_self (creatable_some free).2.2 _, put_changesOnly t _ _⟩

theorem openAppend_some {t t' : FileTree} {path text : Bytes} {p : Path}
    (opened : t.openAppend path = some (p, text, t')) :
    t.creatable path = some p ∧ t'.node p = some (.file text) ∧ ChangesOnly p t t' ∧
      (t.node p = some (.file text) ∨ t.node p = none ∧ text = []) := by
  obtain ⟨q, free, shape⟩ := Option.map_eq_some_iff.mp opened
  have notDir := (creatable_some free).2.1
  cases here : t.node q with
  | none =>
      simp only [here, Prod.mk.injEq] at shape
      obtain ⟨rfl, rfl, rfl⟩ := shape
      exact ⟨free, node_put_self (creatable_some free).2.2 _, put_changesOnly t q _,
        Or.inr ⟨here, rfl⟩⟩
  | some n =>
      cases n with
      | dir => exact absurd here notDir
      | file content =>
          simp only [here, Prod.mk.injEq] at shape
          obtain ⟨rfl, rfl, rfl⟩ := shape
          exact ⟨free, here, ChangesOnly.refl _ _, Or.inl here⟩

theorem append_changesOnly (t : FileTree) (p : Path) (text : Bytes) :
    ChangesOnly p t (t.append p text) := by
  unfold append
  split
  · exact put_changesOnly t p _
  · exact ChangesOnly.refl p t

theorem node_append {t : FileTree} {p : Path} {content : Bytes}
    (here : t.node p = some (.file content)) (text : Bytes) :
    (t.append p text).node p = some (.file (content ++ text)) := by
  rw [append, here]
  exact node_put_self (placeable_of_file here) _

/-! ## The directories on the way -/

def passed : Path → List Name → List Path
  | _, [] => []
  | cur, c :: rest => cur :: passed (enter cur c) rest

def way (t : FileTree) (path : Bytes) : List Path :=
  passed (if path.head? = some slash then [] else t.cwd) (components path)

theorem walk_of_passed {t t' : FileTree} {cs : List Name} :
    ∀ {cur p : Path}, t.walk cur cs = some p →
      (∀ q ∈ passed cur cs, t.node q = some .dir → t'.node q = some .dir) →
      t'.walk cur cs = some p := by
  induction cs with
  | nil => exact fun reached _ => reached
  | cons c rest ih =>
      intro cur p reached stay
      rw [walk] at reached ⊢
      split at reached
      · rename_i here
        rw [if_pos (stay cur (by simp [passed]) here)]
        exact ih reached fun q member => stay q (by simp [passed, member])
      · cases reached

theorem resolve_of_way {t t' : FileTree} {path : Bytes} {p : Path} (cwd : t'.cwd = t.cwd)
    (resolved : t.resolve path = some p)
    (stay : ∀ q ∈ t.way path, t.node q = some .dir → t'.node q = some .dir) :
    t'.resolve path = some p := by
  rw [resolve] at resolved ⊢
  split at resolved
  · cases resolved
  · rename_i named
    rw [if_neg named, cwd]
    exact walk_of_passed resolved stay

theorem mem_passed_of_walk {t : FileTree} {cs : List Name} (last : Name) :
    ∀ {cur p : Path}, t.walk cur cs = some p → p ∈ passed cur (cs ++ [last]) := by
  induction cs with
  | nil =>
      intro cur p reached
      simp only [walk, Option.some.injEq] at reached
      simp [passed, reached]
  | cons c rest ih =>
      intro cur p reached
      rw [walk] at reached
      split at reached
      · exact List.mem_cons_of_mem _ (ih reached)
      · cases reached

theorem mem_way_of_resolve {t : FileTree} {path : Bytes} {p : Path} {name : Name}
    (resolved : t.resolve path = some p) (nonempty : name ≠ []) (plain : slash ∉ name) :
    p ∈ t.way (path ++ slash :: name) := by
  have named : path ≠ [] := by
    rintro rfl
    cases resolved
  obtain ⟨b, path, rfl⟩ := List.exists_cons_of_ne_nil named
  rw [resolve, if_neg named] at resolved
  rw [way, components_append_slash, components_of_name nonempty plain]
  exact mem_passed_of_walk name resolved

/-! ## Where a path leads from a directory -/

/-- One more component of a path given by how many levels it goes up and the
names it goes down after that. -/
def offsetEnter (reached : Nat × List Name) (c : Name) : Nat × List Name :=
  if c = dot then reached
  else if c = dotdot then
    if reached.2 = [] then (reached.1 + 1, []) else (reached.1, reached.2.dropLast)
  else (reached.1, reached.2 ++ [c])

/-- The components with every `..` cancelled against the name before it. -/
def offset (cs : List Name) : Nat × List Name := cs.foldl offsetEnter (0, [])

/-- The place an offset leads to from `start`; `..` at the root stays there. -/
def offsetFrom (start : Path) (reached : Nat × List Name) : Path :=
  start.take (start.length - reached.1) ++ reached.2

theorem enter_offsetFrom (start : Path) (reached : Nat × List Name) (c : Name) :
    enter (offsetFrom start reached) c = offsetFrom start (offsetEnter reached c) := by
  obtain ⟨up, names⟩ := reached
  rw [enter, offsetEnter]
  split
  · rfl
  · split
    · split
      · rename_i empty
        obtain rfl : names = [] := empty
        simp only [offsetFrom, List.append_nil, List.dropLast_eq_take, List.length_take,
          List.take_take]
        congr 1
        omega
      · rename_i more
        exact List.dropLast_append_of_ne_nil more
    · rw [offsetFrom, offsetFrom, List.append_assoc]

theorem foldl_enter (cs : List Name) (start : Path) (reached : Nat × List Name) :
    cs.foldl enter (offsetFrom start reached) = offsetFrom start (cs.foldl offsetEnter reached) := by
  induction cs generalizing reached with
  | nil => rfl
  | cons c rest ih => rw [List.foldl_cons, List.foldl_cons, enter_offsetFrom, ih]

theorem foldl_enter_of_walk {t : FileTree} {cs : List Name} :
    ∀ {cur p : Path}, t.walk cur cs = some p → p = cs.foldl enter cur := by
  induction cs with
  | nil => exact fun reached => (Option.some.inj reached).symm
  | cons c rest ih =>
      intro cur p reached
      rw [walk] at reached
      split at reached
      · exact ih reached
      · cases reached

theorem offset_of_walk {t : FileTree} {start p : Path} {cs : List Name}
    (walked : t.walk start cs = some p) : p = offsetFrom start (offset cs) := by
  rw [foldl_enter_of_walk walked, offset, ← foldl_enter]
  simp [offsetFrom]

/-- Below `start` are the offsets that come back down the way they went up. -/
theorem prefix_offsetFrom {start : Path} {reached : Nat × List Name} :
    start <+: offsetFrom start reached ↔ start.drop (start.length - reached.1) <+: reached.2 := by
  conv_lhs => lhs; rw [← List.take_append_drop (start.length - reached.1) start]
  exact List.prefix_append_right_inj _

theorem offset_fst_of_no_dotdot {cs : List Name} (down : dotdot ∉ cs) : (offset cs).1 = 0 := by
  have stays : ∀ (rest : List Name) (names : List Name), dotdot ∉ rest →
      (rest.foldl offsetEnter (0, names)).1 = 0 := by
    intro rest
    induction rest with
    | nil => exact fun _ _ => rfl
    | cons c rest ih =>
        intro names down
        rw [List.mem_cons, not_or] at down
        rw [List.foldl_cons, offsetEnter, if_neg (Ne.symm down.1)]
        split
        · exact ih names down.2
        · exact ih _ down.2
  exact stays cs [] down

/-! ## Nothing goes -/

structure Grows (t t' : FileTree) : Prop where
  cwd : t'.cwd = t.cwd
  stays : ∀ {p : Path} {n : Node}, t.node p = some n →
    ∃ n', t'.node p = some n' ∧ (n' = .dir ↔ n = .dir)

theorem Grows.refl (t : FileTree) : Grows t t := ⟨rfl, fun here => ⟨_, here, Iff.rfl⟩⟩

theorem Grows.dir {t t' : FileTree} (grows : Grows t t') {p : Path} (here : t.node p = some .dir) :
    t'.node p = some .dir := by
  obtain ⟨n', there, same⟩ := grows.stays here
  rw [there, same.mpr rfl]

theorem Grows.resolve {t t' : FileTree} (grows : Grows t t') {path : Bytes} {p : Path}
    (resolved : t.resolve path = some p) : t'.resolve path = some p :=
  resolve_of_way grows.cwd resolved fun _ _ => grows.dir

theorem Grows.access {t t' : FileTree} (grows : Grows t t') {path : Bytes}
    (there : t.access path = true) : t'.access path = true := by
  obtain ⟨⟨p, n⟩, found⟩ := Option.isSome_iff_exists.mp there
  obtain ⟨resolved, here⟩ := find_node found
  obtain ⟨n', now, same⟩ := grows.stays here
  rw [FileTree.find, resolved, Option.bind_some, here, Option.bind_some] at found
  rw [FileTree.access, FileTree.find, grows.resolve resolved, Option.bind_some, now, Option.bind_some]
  split at found
  · cases found
  · rename_i plain
    rw [if_neg (by rw [Ne, same]; exact plain)]
    rfl

theorem ChangesOnly.grows {t t' : FileTree} {p : Path} (only : ChangesOnly p t t')
    (kept : ∀ n, t.node p = some n → ∃ n', t'.node p = some n' ∧ (n' = .dir ↔ n = .dir)) :
    Grows t t' := by
  refine ⟨only.cwd, fun {q n} here => ?_⟩
  by_cases same : q = p
  · rw [same] at here ⊢
    exact kept n here
  · exact ⟨n, by rw [only.others q same, here], Iff.rfl⟩

end FileTree
end DistrApp
