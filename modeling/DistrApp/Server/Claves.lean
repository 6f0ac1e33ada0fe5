import DistrApp.Server.Calls

/-!
# The eight operations of clavesservidor.c

Each function returns the text it leaves in `res`, and the listings also what
they store through `res2` and `res_username`.  The array sizes are those of
the local arrays of each function.
-/

set_option autoImplicit false

namespace DistrApp.Server

open Text

def folderOf (username : Bytes) : Bytes := ascii "../usuarios/" ++ username
def conectadosTxt : Bytes := ascii "../usuarios/conectados.txt"
def tempTxt : Bytes := ascii "../usuarios/temp.txt"

def fileOf (foldername fileName : Bytes) : Bytes :=
  foldername ++ ascii "/" ++ fileName ++ ascii ".txt"

def registerServ (username : Bytes) : Op Bytes := do
  if username.length = 0 ∨ username.length > 256 then
    return ascii "2"
  let foldername ← sprintf 1024 (folderOf username)
  if ← access foldername then
    return ascii "1"
  if !(← mkdir foldername) then
    return ascii "2"
  return ascii "0"

/-- The loop over `readdir`: `false` when a `remove` fails. -/
def removeFiles (foldername : Bytes) : List (Name × Node) → Op Bool
  | [] => pure true
  | (_, .dir) :: rest => removeFiles foldername rest
  | (dName, .file _) :: rest => do
      let filepath ← sprintf 1024 (foldername ++ ascii "/" ++ dName)
      if ← remove filepath then
        removeFiles foldername rest
      else
        return false

def unregisterServ (username : Bytes) : Op Bytes := do
  let foldername ← sprintf 256 (folderOf username)
  if !(← access foldername) then
    return ascii "1"
  match ← opendir foldername with
  | none => return ascii "1"
  | some dir =>
      if !(← removeFiles foldername dir.entries) then
        closedir dir
        return ascii "2"
      closedir dir
      if !(← rmdir foldername) then
        return ascii "2"
      return ascii "0"

/-- The line `fprintf(conectadosFile, "%s %s %s \n", ...)` writes. -/
def tableEntry (username freeServer freePort : Bytes) : Bytes :=
  username ++ ascii " " ++ freeServer ++ ascii " " ++ freePort ++ ascii " \n"

def connectServ (username freePort freeServer : Bytes) : Op Bytes := do
  let foldername ← sprintf 256 (folderOf username)
  if !(← access foldername) then
    return ascii "1"
  let conectadosFile ← fopen conectadosTxt .append
  if ← findWord 256 username (words (← unread conectadosFile)) then
    fclose conectadosFile
    return ascii "2"
  -- the NULL test comes after the scan, which a NULL stream does not survive
  if conectadosFile.isNone then
    return ascii "3"
  fputs (tableEntry username freeServer freePort) conectadosFile
  fclose conectadosFile
  return ascii "0"

/-- The copying loop: the value of `userFound` after it. -/
def copyOthers (username : Bytes) (tempFile : Option Stream) (userFound : Bool) :
    List Bytes → Op Bool
  | [] => pure userFound
  | line :: rest =>
      if username <:+: cString line then
        copyOthers username tempFile true rest
      else do
        fputs (cString line) tempFile
        copyOthers username tempFile userFound rest

def disconnectServ (username : Bytes) : Op Bytes := do
  let conectadosFile ← fopen conectadosTxt .update
  let tempFile ← fopen tempTxt .write
  let foldername ← sprintf 256 (folderOf username)
  if !(← access foldername) then
    fclose conectadosFile
    return ascii "1"
  if conectadosFile.isNone then
    return ascii "3"
  let userFound ← copyOthers username tempFile false (pieces 256 (← unread conectadosFile))
  fclose conectadosFile
  fclose tempFile
  let _ ← remove conectadosTxt
  let _ ← rename tempTxt conectadosTxt
  if userFound then
    return ascii "0"
  else
    return ascii "2"

def publishServ (username fileName description : Bytes) : Op Bytes := do
  let foldername ← sprintf 50 (folderOf username)
  let checkfile ← sprintf 100 (fileOf foldername fileName)
  if !(← access foldername) then
    return ascii "1"
  if ← access checkfile then
    return ascii "3"
  let conectadosFile ← fopen conectadosTxt .read
  if conectadosFile.isNone then
    return ascii "2"
  -- the result of the scan decides only whether the stream is closed
  if ← findWord 100 username (words (← unread conectadosFile)) then
    fclose conectadosFile
  if fileName = ascii "notfound" then
    return ascii "4"
  let filepath ← sprintf 256 (fileOf foldername fileName)
  let file ← fopen filepath .write
  if file.isNone then
    return ascii "4"
  fputs (description ++ [newline]) file
  fclose file
  return ascii "0"

def deleteServ (username fileName : Bytes) : Op Bytes := do
  -- the comment in the source says that this tests the user name
  if fileName.length = 0 ∨ fileName.length > 256 then
    return ascii "4"
  let foldername ← sprintf 60 (folderOf username)
  if !(← access foldername) then
    return ascii "1"
  let conectadosFile ← fopen conectadosTxt .read
  if conectadosFile.isNone then
    return ascii "2"
  let filepath ← sprintf 256 (fileOf foldername fileName)
  if !(← remove filepath) then
    return ascii "3"
  return ascii "0"

/-- `res` and, where the function stores one, `*res2`. -/
def listUsersServ (username : Bytes) : Op (Bytes × Option Int) := do
  if username = [] then
    return (ascii "2", none)
  let foldername ← sprintf 20 (folderOf username)
  if !(← access foldername) then
    return (ascii "1", none)
  let conectadosFile ← fopen conectadosTxt .read
  if conectadosFile.isNone then
    return (ascii "2", none)
  let lineCount := (pieces 256 (← unread conectadosFile)).length
  fclose conectadosFile
  return (ascii "0", some lineCount)

/-- The entries whose `d_type` is `DT_REG`. -/
def regularEntries (entries : List (Name × Node)) : List (Name × Node) :=
  entries.filter fun entry => entry.2 ≠ .dir

/-- `res`, `*res2` and, where the function stores it, `res_username`. -/
def listContentServ (_username usernameFolder : Bytes) : Op (Bytes × Int × Option Bytes) := do
  let foldername ← sprintf 50 (folderOf usernameFolder)
  match ← opendir foldername with
  | none => return (ascii "Usuario no registrado\n", -1, none)
  | some dir =>
      let fileCount := (regularEntries dir.entries).length
      closedir dir
      let resUsername ← sprintf 50 usernameFolder
      return (ascii "0", fileCount, some resUsername)

end DistrApp.Server
