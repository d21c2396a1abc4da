import Luminix.Calls
import Luminix.Export
import Luminix.Json.Import

/-!
# Sessions

What `main.c` does with the database that is open, `g_database`, and with files: creating, opening,
closing, saving the state and finding it again, backups.  A `Session` is the open database, the
counter of `generate_record_id` and the contents of files; an `Action` is what the user, a signal or
another process does next, together with the environment it happens in.  Lines that are read from
the user are arguments.

Where a save or a load crashes the program ends; here the session goes on as after one that has
failed, so it has all the states of the program, and more.  Restoring a backup is not an action:
`db_restore_backup` frees the index manager of the open database with `index_manager_free`, which
reads pointers that `create_simple_index_manager` has never set.
-/

namespace Luminix

open CLib Machine

/-! ### Databases and files -/

/-- `db_open`. -/
def dbOpen (p : Platform) (counter : Int) (file : Option (List UInt8)) : Option (Option Store) :=
  if file.isSome then dbLoadFromFile p counter file else some (some ⟨dbCreate, counter⟩)

/-- `db_save_to_file` onto the file at a path. -/
def dbSaveTo (p : Platform) (options : JsonSaveOptions) (files : Files) (path : CString)
    (db : Database) : ErrorCode × Files :=
  let saved := saveOver p (some options) (files path) db
  (saved.1, Function.update files path saved.2)

/-- The name of the file `db_create_backup` writes at a time `t`. -/
def backupName (t : Tm) : List UInt8 :=
  ascii "backup_" ++ zeroPadded 4 (t.year + 1900) ++ zeroPadded 2 (t.mon + 1) ++
    zeroPadded 2 t.mday ++ ascii "_" ++ zeroPadded 2 t.hour ++ zeroPadded 2 t.min ++
    zeroPadded 2 t.sec ++ ascii ".json"

/-- Its path, as far as it fits in 512 bytes. -/
def dbBackupPath (t : Tm) (backupDir : CString) : CString :=
  CString.ofBytes ((backupDir.bytes ++ ascii "/" ++ backupName t).take 511)

/-- `db_create_backup`, less the directory it makes. -/
def dbCreateBackup (p : Platform) (t : Tm) (options : JsonSaveOptions) (files : Files)
    (backupDir : CString) (db : Database) : ErrorCode × Files :=
  dbSaveTo p options files (dbBackupPath t backupDir) db

/-! ### The session -/

/-- The state of the program. -/
structure Session where
  /-- `g_database`. -/
  database : Option Database
  globalCounter : Int
  files : Files

/-- What happens next.  `response` is the first character of an answer. -/
inductive Action
  | createDatabase
  | openDatabase (p : Platform) (path : CString)
  | closeDatabase (p : Platform) (response : UInt8)
  | saveState (p : Platform)
  | loadState (p : Platform) (response : UInt8)
  | cleanup (p : Platform)
  | backupDatabase (p : Platform) (t : Tm) (backupDir : CString)
  | exportJson (p : Platform) (dbPath exportPath : CString)
  | importTable (p : Platform) (text : Option CString)
  | call (c : Call)
  | moveCounter (counter : Int)
  | otherProcess (path : CString) (content : Option (List UInt8))

/-- Whether an answer means yes. -/
def isYes (response : UInt8) : Bool := toLower response == 121

/-- The file of `save_state`. -/
def savedStateFile (db : Database) : CString :=
  CString.ofBytes (((getDatabaseName db).bytes ++ ascii ".state.json").take 255)

/-- The file of `load_state`. -/
def loadedStateFile : CString := cstr "default.state.json"

namespace Session

/-- The session with this database open. -/
def withStore (s : Session) (store : Store) : Session :=
  { s with database := some store.db, globalCounter := store.globalCounter }

/-- The session after a database has been loaded, or has not; the counter is where it was then
(`globalCounter_load`). -/
def withLoaded (s : Session) : Option (Option Store) → Session
  | some (some store) => s.withStore store
  | _ => { s with database := none }

/-- `create_database_interactive`: the configuration it fills in is not used. -/
def createDatabase (s : Session) : Session := s.withStore ⟨dbCreate, s.globalCounter⟩

/-- `open_database_interactive`, and `--database`. -/
def openDatabase (s : Session) (p : Platform) (path : CString) : Session :=
  s.withLoaded (dbOpen p s.globalCounter (s.files path))

/-- `save_state`. -/
def saveState (s : Session) (p : Platform) : Session :=
  match s.database with
  | none => s
  | some db => { s with files := (dbSaveTo p ⟨true, false⟩ s.files (savedStateFile db) db).2 }

/-- `close_database_interactive`. -/
def closeDatabase (s : Session) (p : Platform) (response : UInt8) : Session :=
  match s.database with
  | none => s
  | some _ => { (if isYes response then s.saveState p else s) with database := none }

/-- `cleanup`. -/
def cleanup (s : Session) (p : Platform) : Session :=
  match s.database with
  | none => s
  | some _ => { s.saveState p with database := none }

/-- `load_state`. -/
def loadState (s : Session) (p : Platform) (response : UInt8) : Session :=
  if (s.files loadedStateFile).isSome && isYes response then
    s.withLoaded (dbLoadFromFile p s.globalCounter (s.files loadedStateFile))
  else s

/-- `backup_database_interactive`. -/
def backupDatabase (s : Session) (p : Platform) (t : Tm) (backupDir : CString) : Session :=
  match s.database with
  | none => s
  | some db => { s with files := (dbCreateBackup p t ⟨true, true⟩ s.files backupDir db).2 }

/-- A change of the open database. -/
def onStore (s : Session) (f : Store → Store) : Session :=
  match s.database with
  | none => s
  | some db => s.withStore (f ⟨db, s.globalCounter⟩)

/-- What happens. -/
def step (s : Session) : Action → Session
  | .createDatabase => s.createDatabase
  | .openDatabase p path => s.openDatabase p path
  | .closeDatabase p response => s.closeDatabase p response
  | .saveState p => s.saveState p
  | .loadState p response => s.loadState p response
  | .cleanup p => s.cleanup p
  | .backupDatabase p t backupDir => s.backupDatabase p t backupDir
  | .exportJson p dbPath exportPath =>
    let res := exportToJson p s.globalCounter s.files dbPath exportPath
    { s with files := res.2.1, globalCounter := res.2.2 }
  | .importTable p text => s.onStore fun store => (jsonToTable p store text).2
  | .call c => s.onStore fun store => store.step c
  | .moveCounter counter => { s with globalCounter := intWrap counter }
  | .otherProcess path content => { s with files := Function.update s.files path content }

/-- A program that has just been started, with any files. -/
def Init (s : Session) : Prop := s.database = none ∧ s.globalCounter = 1000

/-- The states of a session. -/
def Reachable : Session → Prop := Reach Init step fun _ _ => True

end Session

end Luminix
