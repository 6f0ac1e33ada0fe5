import DistrApp.Library.FileTree
import DistrApp.Library.Effects

/-!
# The C library under the server

One operation of the server runs on the file tree, a list saying which of the
coming calls fail although the tree allows them, and the log of opened and
closed handles.  A write past an array, a read past one, or a NULL stream ends
it with `Undefined`: from there on C says nothing about the program.
-/

set_option autoImplicit false

namespace DistrApp.Server

open Text

inductive Undefined
  | overflow
  | overread
  | nullStream
  deriving DecidableEq

inductive HandleEvent
  | opened (id : Nat)
  | closed (id : Nat)
  deriving DecidableEq

structure Sys where
  tree : FileTree
  /-- Whether each coming call fails; past the end of the list none does. -/
  faults : List Bool
  handles : List HandleEvent

abbrev Op := EStateM Undefined Sys

/-- An open `FILE`: its handle, the file it writes to, its unread text. -/
structure Stream where
  id : Nat
  path : Path
  text : Bytes

/-- The modes `"r"`, `"r+"`, `"a+"` and `"w"`. -/
inductive Mode
  | read
  | update
  | append
  | write

structure Dir where
  id : Nat
  entries : List (Name × Node)

/-- `sprintf` into an array of `size` bytes, terminating NUL included. -/
def sprintf (size : Nat) (text : Bytes) : Op Bytes :=
  if text.length < size then pure text else throw .overflow

def nextFault : Op Bool := fun s =>
  match s.faults with
  | [] => .ok false s
  | fault :: rest => .ok fault { s with faults := rest }

def Sys.afterFault (s : Sys) : Sys := { s with faults := s.faults.tail }

/-- Whether call number `n` from here fails although the tree allows it. -/
def Sys.fails (s : Sys) (n : Nat) : Bool := s.faults.getD n false

def access (path : Bytes) : Op Bool := fun s => .ok (s.tree.access path) s

/-- A call that changes the tree or fails; `true` is the return code 0. -/
def change (attempt : FileTree → Option FileTree) : Op Bool := do
  if ← nextFault then
    return false
  let s ← get
  match attempt s.tree with
  | some tree =>
      set { s with tree := tree }
      return true
  | none => return false

def mkdir (path : Bytes) : Op Bool := change fun t => t.mkdir path
def rmdir (path : Bytes) : Op Bool := change fun t => t.rmdir path
def remove (path : Bytes) : Op Bool := change fun t => t.remove path
def rename (old new : Bytes) : Op Bool := change fun t => t.rename old new

def openFile (t : FileTree) (path : Bytes) : Mode → Option (Path × Bytes × FileTree)
  | .read => (t.openRead path).map fun file => (file.1, file.2, t)
  | .update => (t.openUpdate path).map fun file => (file.1, file.2, t)
  | .append => t.openAppend path
  | .write => (t.openWrite path).map fun file => (file.1, [], file.2)

def fopen (path : Bytes) (mode : Mode) : Op (Option Stream) := do
  if ← nextFault then
    return none
  let s ← get
  match openFile s.tree path mode with
  | some (file, text, tree) =>
      set { s with tree := tree, handles := s.handles ++ [HandleEvent.opened s.handles.length] }
      return some ⟨s.handles.length, file, text⟩
  | none => return none

def opendir (path : Bytes) : Op (Option Dir) := do
  if ← nextFault then
    return none
  let s ← get
  match s.tree.opendir path with
  | some entries =>
      set { s with handles := s.handles ++ [HandleEvent.opened s.handles.length] }
      return some ⟨s.handles.length, entries⟩
  | none => return none

def closeHandle (id : Nat) : Op Unit := fun s =>
  .ok () { s with handles := s.handles ++ [.closed id] }

def closedir (dir : Dir) : Op Unit := closeHandle dir.id

def fclose : Option Stream → Op Unit
  | some f => closeHandle f.id
  | none => throw .nullStream

/-- What the reads of a loop over `f` can still see. -/
def unread : Option Stream → Op Bytes
  | some f => pure f.text
  | none => throw .nullStream

def fputs (text : Bytes) : Option Stream → Op Unit
  | some f => fun s => .ok () { s with tree := s.tree.append f.path text }
  | none => throw .nullStream

/-- `while (fscanf(f, "%s", word) == 1) if (strcmp(username, word) == 0) break;`
with a `word` of `size` bytes; `none` when a word does not fit. -/
def scanWords (size : Nat) (username : Bytes) : List Bytes → Option Bool
  | [] => some false
  | word :: rest =>
      if size ≤ word.length then none
      else if cString word = username then some true
      else scanWords size username rest

def findWord (size : Nat) (username : Bytes) (seen : List Bytes) : Op Bool :=
  match scanWords size username seen with
  | some found => pure found
  | none => throw .overflow

/-! ## Running them

One lemma for each call and what follows it.  Those that need `calm` are about
calls that fail only where the tree makes them fail. -/

theorem nextFault_run (s : Sys) : nextFault.run s = .ok (s.faults.headD false) s.afterFault := by
  obtain ⟨tree, faults, handles⟩ := s
  cases faults <;> rfl

theorem fopen_run (s : Sys) (path : Bytes) (mode : Mode) :
    (fopen path mode).run s =
      if s.faults.headD false then .ok none s.afterFault
      else match openFile s.tree path mode with
        | none => .ok none s.afterFault
        | some (file, text, tree) => .ok (some ⟨s.handles.length, file, text⟩)
            { s.afterFault with
              tree := tree, handles := s.handles ++ [HandleEvent.opened s.handles.length] } := by
  rw [fopen, EStateM.run_bind, nextFault_run]
  simp only
  split
  · rfl
  · simp only [EStateM.run_bind, EStateM.run_get, Sys.afterFault]
    cases openFile s.tree path mode <;> rfl

theorem opendir_run (s : Sys) (path : Bytes) :
    (opendir path).run s =
      if s.faults.headD false then .ok none s.afterFault
      else match s.tree.opendir path with
        | none => .ok none s.afterFault
        | some entries => .ok (some ⟨s.handles.length, entries⟩)
            { s.afterFault with
              handles := s.handles ++ [HandleEvent.opened s.handles.length] } := by
  rw [opendir, EStateM.run_bind, nextFault_run]
  simp only
  split
  · rfl
  · simp only [EStateM.run_bind, EStateM.run_get, Sys.afterFault]
    cases s.tree.opendir path <;> rfl

theorem change_run (s : Sys) (attempt : FileTree → Option FileTree) :
    (change attempt).run s =
      if s.faults.headD false then .ok false s.afterFault
      else match attempt s.tree with
        | none => .ok false s.afterFault
        | some tree => .ok true { s.afterFault with tree := tree } := by
  rw [change, EStateM.run_bind, nextFault_run]
  simp only
  split
  · rfl
  · simp only [EStateM.run_bind, EStateM.run_get, Sys.afterFault]
    cases attempt s.tree <;> rfl

theorem headD_faults (s : Sys) : s.faults.headD false = s.fails 0 := by
  rw [Sys.fails]
  cases s.faults <;> rfl

theorem fails_drop {s s' : Sys} {n : Nat} (later : s'.faults = s.faults.drop n) (m : Nat) :
    s'.fails m = s.fails (n + m) := by
  rw [Sys.fails, Sys.fails, later, List.getD_eq_getElem?_getD, List.getElem?_drop,
    List.getD_eq_getElem?_getD]

section Running
variable {β : Type} (s : Sys)

theorem run_ite {ε σ α : Type} {c : Prop} [Decidable c] (left right : EStateM ε σ α) (s : σ) :
    (if c then left else right).run s = if c then left.run s else right.run s := by
  split <;> rfl

theorem run_sprintf (size : Nat) (text : Bytes) (next : Bytes → Op β) :
    (sprintf size text >>= next).run s =
      if text.length < size then (next text).run s else .error .overflow s := by
  unfold sprintf
  split <;> rfl

theorem run_access (path : Bytes) (next : Bool → Op β) :
    (access path >>= next).run s = (next (s.tree.access path)).run s := rfl

theorem run_closedir (dir : Dir) (next : Unit → Op β) :
    (closedir dir >>= next).run s =
      (next ()).run { s with handles := s.handles ++ [.closed dir.id] } := rfl

theorem run_fclose_some (f : Stream) (next : Unit → Op β) :
    (fclose (some f) >>= next).run s =
      (next ()).run { s with handles := s.handles ++ [.closed f.id] } := rfl

theorem run_fclose_none (next : Unit → Op β) :
    (fclose none >>= next).run s = .error .nullStream s := rfl

theorem run_unread_some (f : Stream) (next : Bytes → Op β) :
    (unread (some f) >>= next).run s = (next f.text).run s := rfl

theorem run_unread_none (next : Bytes → Op β) :
    (unread none >>= next).run s = .error .nullStream s := rfl

theorem run_fputs_some (text : Bytes) (f : Stream) (next : Unit → Op β) :
    (fputs text (some f) >>= next).run s =
      (next ()).run { s with tree := s.tree.append f.path text } := rfl

theorem run_fputs_none (text : Bytes) (next : Unit → Op β) :
    (fputs text none >>= next).run s = .error .nullStream s := rfl

theorem run_findWord (size : Nat) (username : Bytes) (seen : List Bytes) (next : Bool → Op β) :
    (findWord size username seen >>= next).run s =
      match scanWords size username seen with
      | some found => (next found).run s
      | none => .error .overflow s := by
  unfold findWord
  cases scanWords size username seen <;> rfl

variable {s}

theorem run_nextFault (calm : s.faults = []) (next : Bool → Op β) :
    (nextFault >>= next).run s = (next false).run s := by
  rw [EStateM.run_bind]
  simp [nextFault, EStateM.run, calm]

theorem run_change (calm : s.faults = []) (attempt : FileTree → Option FileTree)
    (next : Bool → Op β) :
    (change attempt >>= next).run s =
      match attempt s.tree with
      | some tree => (next true).run { s with tree := tree }
      | none => (next false).run s := by
  rw [change, bind_assoc, run_nextFault calm]
  simp only [Bool.false_eq_true, if_false, bind_assoc, EStateM.run_bind, EStateM.run_get]
  cases attempt s.tree <;> simp

theorem run_mkdir (calm : s.faults = []) (path : Bytes) (next : Bool → Op β) :
    (mkdir path >>= next).run s =
      match s.tree.mkdir path with
      | some tree => (next true).run { s with tree := tree }
      | none => (next false).run s := run_change calm _ next

theorem run_rmdir (calm : s.faults = []) (path : Bytes) (next : Bool → Op β) :
    (rmdir path >>= next).run s =
      match s.tree.rmdir path with
      | some tree => (next true).run { s with tree := tree }
      | none => (next false).run s := run_change calm _ next

theorem run_remove (calm : s.faults = []) (path : Bytes) (next : Bool → Op β) :
    (remove path >>= next).run s =
      match s.tree.remove path with
      | some tree => (next true).run { s with tree := tree }
      | none => (next false).run s := run_change calm _ next

theorem run_rename (calm : s.faults = []) (old new : Bytes) (next : Bool → Op β) :
    (rename old new >>= next).run s =
      match s.tree.rename old new with
      | some tree => (next true).run { s with tree := tree }
      | none => (next false).run s := run_change calm _ next

theorem run_fopen (calm : s.faults = []) (path : Bytes) (mode : Mode)
    (next : Option Stream → Op β) :
    (fopen path mode >>= next).run s =
      match openFile s.tree path mode with
      | some (file, text, tree) => (next (some ⟨s.handles.length, file, text⟩)).run
          { s with tree := tree, handles := s.handles ++ [HandleEvent.opened s.handles.length] }
      | none => (next none).run s := by
  rw [fopen, bind_assoc, run_nextFault calm]
  simp only [Bool.false_eq_true, if_false, bind_assoc, EStateM.run_bind, EStateM.run_get]
  cases openFile s.tree path mode <;> simp

theorem run_opendir (calm : s.faults = []) (path : Bytes) (next : Option Dir → Op β) :
    (opendir path >>= next).run s =
      match s.tree.opendir path with
      | some entries => (next (some ⟨s.handles.length, entries⟩)).run
          { s with handles := s.handles ++ [HandleEvent.opened s.handles.length] }
      | none => (next none).run s := by
  rw [opendir, bind_assoc, run_nextFault calm]
  simp only [Bool.false_eq_true, if_false, bind_assoc, EStateM.run_bind, EStateM.run_get]
  cases s.tree.opendir path <;> simp

end Running

end DistrApp.Server
