import Luminix.Equiv.Cycles
import Luminix.Equiv.Loaded
import Luminix.Session

/-!
# Whole sessions

Whatever a user does, and whatever the files hold, the open database is one that calls lead to, so
its tables are well formed (`session_tables_wellFormed`).  Each action writes at most the files that
it names (`Session.step_files`); from this follow what becomes of saved states and backups.  A state
that is saved is looked for under another name (`loadState_finds_nothing`).  Closing and opening a
clean database reverses its rows each time (`run_reopen`), and a backup of it can be opened after
anything that leaves the file alone (`open_after_backup`).
-/

namespace Luminix

open CLib Machine

/-! ### The open database -/

/-- A reachable store stays reachable when the counter moves. -/
theorem Store.Reachable.moveCounter {db : Database} {k k' : Int} (h : Store.Reachable ⟨db, k⟩)
    (hk : IsInt k') : Store.Reachable ⟨db, k'⟩ := by
  have hnext : Store.Reachable (Store.step ⟨db, k⟩ (.moveCounter k')) := Reach.next h trivial
  rwa [Store.step, intWrap_eq_self hk] at hnext

/-- The counter is an `int`, and calls lead to the open database. -/
structure Session.Sound (s : Session) : Prop where
  isInt : IsInt s.globalCounter
  reachable : ∀ db, s.database = some db → Store.Reachable ⟨db, s.globalCounter⟩

namespace Session

variable {s : Session}

theorem Sound.withStore {store : Store} (h : store.Reachable) : (s.withStore store).Sound where
  isInt := h.isInt.1
  reachable db hdb := by
    obtain rfl := Option.some.inj hdb
    exact h

/-- Without a database there is nothing but the counter. -/
theorem Sound.closed (h : IsInt s.globalCounter) : Sound { s with database := none } where
  isInt := h
  reachable db hdb := by cases hdb

/-- Files do not matter. -/
theorem Sound.withFiles (h : s.Sound) (files : Files) : Sound { s with files } where
  isInt := h.isInt
  reachable := h.reachable

theorem Sound.moveCounter (h : s.Sound) {k : Int} (hk : IsInt k) :
    Sound { s with globalCounter := k } where
  isInt := hk
  reachable db hdb := (h.reachable db hdb).moveCounter hk

/-- The database is loaded from whatever bytes there are. -/
theorem Sound.withLoaded (h : s.Sound) (p : Platform) (file : Option (List UInt8)) :
    (s.withLoaded (dbLoadFromFile p s.globalCounter file)).Sound := by
  unfold Session.withLoaded
  split
  next heq => exact .withStore (reachable_load h.isInt heq)
  · exact .closed h.isInt

theorem Sound.saveState (h : s.Sound) (p : Platform) : (s.saveState p).Sound := by
  unfold Session.saveState
  split
  · exact h
  · exact h.withFiles _

theorem Sound.openDatabase (h : s.Sound) (p : Platform) (path : CString) :
    (s.openDatabase p path).Sound := by
  unfold Session.openDatabase dbOpen
  split_ifs
  · exact h.withLoaded p _
  · exact .withStore (reachable_dbCreate h.isInt)

theorem Sound.closeDatabase (h : s.Sound) (p : Platform) (response : UInt8) :
    (s.closeDatabase p response).Sound := by
  unfold Session.closeDatabase
  split
  · exact h
  · split_ifs
    · exact .closed (h.saveState p).isInt
    · exact .closed h.isInt

theorem Sound.cleanup (h : s.Sound) (p : Platform) : (s.cleanup p).Sound := by
  unfold Session.cleanup
  split
  · exact h
  · exact .closed (h.saveState p).isInt

theorem Sound.loadState (h : s.Sound) (p : Platform) (response : UInt8) :
    (s.loadState p response).Sound := by
  unfold Session.loadState
  split_ifs
  · exact h.withLoaded p _
  · exact h

theorem Sound.backupDatabase (h : s.Sound) (p : Platform) (t : Tm) (backupDir : CString) :
    (s.backupDatabase p t backupDir).Sound := by
  unfold Session.backupDatabase
  split
  · exact h
  · exact h.withFiles _

theorem Sound.onStore (h : s.Sound) {f : Store → Store}
    (hf : ∀ store : Store, store.Reachable → (f store).Reachable) : (s.onStore f).Sound := by
  unfold Session.onStore
  split
  · exact h
  next hdb => exact .withStore (hf _ (h.reachable _ hdb))

/-- The counter after a transfer is an `int`. -/
theorem isInt_transferJson {p : Platform} {options : JsonSaveOptions} {counter : Int}
    (h : IsInt counter) (files : Files) (sourcePath destPath : CString) :
    IsInt (transferJson p options counter files sourcePath destPath).2.2 := by
  unfold transferJson
  split
  next heq => exact (reachable_load h heq).isInt.1
  · exact h

/-- **Every action keeps the session sound.** -/
theorem Sound.step (h : s.Sound) (a : Action) : (s.step a).Sound := by
  cases a with
  | createDatabase => exact .withStore (reachable_dbCreate h.isInt)
  | openDatabase p path => exact h.openDatabase p path
  | closeDatabase p response => exact h.closeDatabase p response
  | saveState p => exact h.saveState p
  | loadState p response => exact h.loadState p response
  | cleanup p => exact h.cleanup p
  | backupDatabase p t backupDir => exact h.backupDatabase p t backupDir
  | exportJson p dbPath exportPath =>
    exact (h.moveCounter (isInt_transferJson h.isInt _ _ _)).withFiles _
  | importTable p text => exact h.onStore fun store hstore => hstore.jsonToTable text
  | call c => exact h.onStore fun store hstore => Reach.next hstore trivial
  | moveCounter counter => exact h.moveCounter (isInt_intWrap counter)
  | otherProcess path content => exact h.withFiles _

theorem Init.sound (h : s.Init) : s.Sound where
  isInt := by rw [h.2]; decide
  reachable db hdb := by
    rw [h.1] at hdb
    cases hdb

theorem Reachable.sound (h : s.Reachable) : s.Sound :=
  Reach.invariant (P := Sound) (fun _ hs => hs.sound) (fun _ a hs _ => hs.step a) h

end Session

/-- **In every session, the open database is one that calls lead to**, whatever bytes the files
hold; its tables are well formed. -/
theorem session_tables_wellFormed {s : Session} (h : s.Reachable) {db : Database}
    (hdb : s.database = some db) :
    Store.Reachable ⟨db, s.globalCounter⟩ ∧ ∀ t ∈ db.tables, t.Inv := by
  have hreach := h.sound.reachable db hdb
  refine ⟨hreach, fun t ht => ?_⟩
  obtain ⟨i, hi⟩ := List.mem_iff_getElem?.mp ht
  exact (hreach.table hi).inv

/-- A program without files. -/
def startedSession : Session := ⟨none, 1000, fun _ => none⟩

/-- Making a database with a table, and putting two records into it. -/
def peopleActions : List Action :=
  [.createDatabase,
    .call (.addTable (some (cstr "people"))
      (some [(some (cstr "id"), .int), (some (cstr "name"), .string)])),
    .call (.tableInsert 0 0
      (some [.ofInt 7, ⟨default, .string, FieldValue.zero.setString (cstr "Ada")⟩])),
    .call (.tableInsert 0 0
      (some [.ofInt 3, ⟨default, .string, FieldValue.zero.setString (cstr "Alan")⟩]))]

theorem session_tables_wellFormed_people :
    Store.Reachable ⟨peopleStore.db, peopleStore.globalCounter⟩ ∧
      ∀ t ∈ peopleStore.db.tables, t.Inv :=
  session_tables_wellFormed (s := run Session.step startedSession peopleActions)
    (Reach.run (.start ⟨rfl, rfl⟩) (.of_forall (fun _ _ => trivial) _ _)) rfl

/-! ### Files -/

/-- The file of every saved state: the name of the database does not depend on the database. -/
theorem savedStateFile_eq (db : Database) : savedStateFile db = cstr "Database.state.json" := rfl

/-- The files that an action can write. -/
def Action.targets : Action → List CString
  | .closeDatabase .. | .saveState _ | .cleanup _ => [cstr "Database.state.json"]
  | .backupDatabase _ t backupDir => [dbBackupPath t backupDir]
  | .exportJson _ _ exportPath => [exportPath]
  | .otherProcess path _ => [path]
  | _ => []

namespace Session

variable {s : Session} {path : CString}

theorem files_withLoaded (loaded : Option (Option Store)) :
    (s.withLoaded loaded).files = s.files := by
  unfold withLoaded
  split <;> rfl

theorem files_onStore (f : Store → Store) : (s.onStore f).files = s.files := by
  unfold onStore
  split <;> rfl

theorem files_saveState (p : Platform) (h : path ≠ cstr "Database.state.json") :
    (s.saveState p).files path = s.files path := by
  unfold saveState
  split
  · rfl
  · exact Function.update_of_ne h _ _

/-- **An action leaves all other files as they are.** -/
theorem step_files (s : Session) {a : Action} (h : path ∉ a.targets) :
    (s.step a).files path = s.files path := by
  cases a with
  | createDatabase => rfl
  | openDatabase p file => exact congrFun (files_withLoaded _) path
  | closeDatabase p response =>
    -- the state is saved only if the answer is yes and a database is open
    have hsave := files_saveState (s := s) p (List.ne_of_not_mem_cons h)
    show (s.closeDatabase p response).files path = _
    unfold closeDatabase
    split
    · rfl
    · split_ifs
      · exact hsave
      · rfl
  | saveState p => exact files_saveState p (List.ne_of_not_mem_cons h)
  | loadState p response =>
    show (s.loadState p response).files path = _
    unfold loadState
    split_ifs
    · rw [files_withLoaded]
    · rfl
  | cleanup p =>
    have hsave := files_saveState (s := s) p (List.ne_of_not_mem_cons h)
    show (s.cleanup p).files path = _
    unfold cleanup
    split
    · rfl
    · exact hsave
  | backupDatabase p t backupDir =>
    show (s.backupDatabase p t backupDir).files path = _
    unfold backupDatabase
    split
    · rfl
    · exact Function.update_of_ne (List.ne_of_not_mem_cons h) _ _
  | exportJson p dbPath exportPath =>
    show (transferJson p _ s.globalCounter s.files dbPath exportPath).2.1 path = _
    unfold transferJson
    split
    · exact Function.update_of_ne (List.ne_of_not_mem_cons h) _ _
    · rfl
  | importTable p text => exact congrFun (files_onStore _) path
  | call c => exact congrFun (files_onStore _) path
  | moveCounter counter => rfl
  | otherProcess file content => exact Function.update_of_ne (List.ne_of_not_mem_cons h) _ _

/-- So do many actions. -/
theorem run_files (s : Session) {actions : List Action} (h : ∀ a ∈ actions, path ∉ a.targets) :
    (run step s actions).files path = s.files path :=
  have hadm : Admits step (fun _ a => path ∉ a.targets) s actions :=
    .of_forall_mem (fun a ha _ => h a ha) s
  run_invariant (P := fun s' : Session => s'.files path = s.files path)
    (fun s' _ hs' ha => (s'.step_files ha).trans hs') rfl hadm

end Session

/-! ### Saved states -/

/-- The path of a backup has a slash in it, or is cut at 511 characters. -/
theorem dbBackupPath_ne_loadedStateFile (t : Tm) (backupDir : CString) :
    dbBackupPath t backupDir ≠ loadedStateFile := by
  intro heq
  have hne : ∀ c ∈ backupDir.bytes, c ≠ 0 := fun c hc h0 => backupDir.nulFree (h0 ▸ hc)
  have hbytes : ((backupDir.bytes ++ ascii "/" ++ backupName t).take 511).takeWhile (· ≠ 0) =
      loadedStateFile.bytes := congrArg CString.bytes heq
  rcases Nat.lt_or_ge backupDir.bytes.length 511 with hlt | hge
  · have hslash : (47 : UInt8) ∈ loadedStateFile.bytes := by
      obtain ⟨n, hn⟩ : ∃ n, 511 - backupDir.bytes.length = n + 1 :=
        ⟨_, (Nat.succ_pred_eq_of_pos (Nat.sub_pos_of_lt hlt)).symm⟩
      rw [← hbytes, List.append_assoc, List.take_append, List.take_of_length_le hlt.le, hn,
        List.takeWhile_append_of_pos (by simpa using hne)]
      exact List.mem_append_right _ List.mem_cons_self
    exact absurd hslash (by decide)
  · have hlen : loadedStateFile.bytes.length = 511 := by
      rw [← hbytes, List.append_assoc, List.take_append_of_le_length hge,
        List.takeWhile_eq_self_iff.mpr fun c hc => by simpa using hne c (List.mem_of_mem_take hc),
        List.length_take, Nat.min_eq_left hge]
    exact absurd hlen (by decide)

/-- Neither another process nor an export, whose path the user chooses, writes this file. -/
def Action.Spares (path : CString) : Action → Prop
  | .exportJson _ _ exportPath => path ≠ exportPath
  | .otherProcess other _ => path ≠ other
  | _ => True

/-- The program itself never writes the file that `load_state` looks for. -/
theorem loadedStateFile_not_mem_targets {a : Action} (h : a.Spares loadedStateFile) :
    loadedStateFile ∉ a.targets := by
  have hsaved : loadedStateFile ≠ cstr "Database.state.json" := by decide
  cases a with
  | closeDatabase p response => exact List.mem_singleton.not.mpr hsaved
  | saveState p => exact List.mem_singleton.not.mpr hsaved
  | cleanup p => exact List.mem_singleton.not.mpr hsaved
  | backupDatabase p t backupDir =>
    exact List.mem_singleton.not.mpr (dbBackupPath_ne_loadedStateFile t backupDir).symm
  | exportJson p dbPath exportPath => exact List.mem_singleton.not.mpr h
  | otherProcess path content => exact List.mem_singleton.not.mpr h
  | _ => exact List.not_mem_nil

/-- **A saved state is never found again.**  Whatever has been done, `load_state` does nothing: it
looks for a file that `save_state` does not write. -/
theorem loadState_finds_nothing {s : Session} (hs : s.files loadedStateFile = none)
    {actions : List Action} (h : ∀ a ∈ actions, a.Spares loadedStateFile) (p : Platform)
    (response : UInt8) :
    (run Session.step s actions).loadState p response = run Session.step s actions := by
  have hnone : (run Session.step s actions).files loadedStateFile = none := by
    rw [Session.run_files s fun a ha => loadedStateFile_not_mem_targets (h a ha), hs]
  rw [Session.loadState, hnone]
  rfl

theorem loadState_finds_nothing_saved :
    (run Session.step startedSession [.createDatabase, .saveState .epoch]).loadState .epoch 121 =
      run Session.step startedSession [.createDatabase, .saveState .epoch] := by
  refine loadState_finds_nothing rfl ?_ .epoch 121
  rw [List.forall_mem_cons, List.forall_mem_singleton]
  exact ⟨trivial, trivial⟩

/-! ### Closing and opening -/

/-- Closing the database with its state saved, and opening that state in another environment. -/
def reopen (envs : Platform × Platform) : List Action :=
  [.closeDatabase envs.1 121, .openDatabase envs.2 (cstr "Database.state.json")]

/-- Saving a database succeeds in a faithful environment. -/
theorem dbSaveTo_files {p : Platform} (hp : p.Faithful) {db : Database} (h : db.Clean)
    (options : JsonSaveOptions) (files : Files) (path : CString) :
    (dbSaveTo p options files path db).2 path = (dbSaveToFile p db).2 := by
  obtain ⟨text, hsave, -⟩ := dbSaveToFile_reads hp h.plainNames.hasKeys h.timesConvert
  show Function.update files path ((dbSaveToFile p db).2.or (files path)) path = _
  rw [Function.update_self, hsave, Option.some_or]

/-- Opening a file that holds a clean database. -/
theorem openDatabase_clean {s : Session} {p q : Platform} (hp : p.Faithful) (hq : q.Faithful)
    {db : Database} (h : db.Clean) {path : CString} (hfile : s.files path = (dbSaveToFile p db).2) :
    ∃ db', (s.openDatabase q path).database = some db' ∧ db'.Clean ∧
      db'.views = db.views.map TableView.reversed := by
  obtain ⟨text, hsave, -⟩ := dbSaveToFile_reads hp h.plainNames.hasKeys h.timesConvert
  obtain ⟨store, hload, hclean, hviews, -⟩ := load_clean_later hp hq h s.globalCounter
  refine ⟨store.db, ?_, hclean, hviews⟩
  have hsome : (s.files path).isSome = true := by rw [hfile, hsave]; rfl
  rw [Session.openDatabase, dbOpen, if_pos hsome, hfile, hload]
  rfl

/-- A clean database that is closed and opened again has its rows reversed. -/
theorem run_reopen_once {s : Session} {db : Database} (hdb : s.database = some db) (h : db.Clean)
    {envs : Platform × Platform} (hp : envs.1.Faithful) (hq : envs.2.Faithful) :
    ∃ db', (run Session.step s (reopen envs)).database = some db' ∧ db'.Clean ∧
      db'.views = db.views.map TableView.reversed := by
  refine openDatabase_clean hp hq h ?_
  have hyes : isYes 121 = true := rfl
  show (s.closeDatabase envs.1 121).files (cstr "Database.state.json") = _
  rw [Session.closeDatabase, hdb]
  dsimp only
  rw [if_pos hyes, Session.saveState, hdb]
  dsimp only
  rw [savedStateFile_eq]
  exact dbSaveTo_files hp h _ _ _

theorem run_reopen_views {s : Session} {db : Database} (hdb : s.database = some db) (h : db.Clean)
    {envs : List (Platform × Platform)} (henvs : ∀ e ∈ envs, e.1.Faithful ∧ e.2.Faithful) :
    ∃ db', (run Session.step s (envs.flatMap reopen)).database = some db' ∧ db'.Clean ∧
      db'.views = db.views.map TableView.reversed^[envs.length] := by
  induction envs generalizing s db with
  | nil => exact ⟨db, hdb, h, (List.map_id _).symm⟩
  | cons e envs ih =>
    rw [List.forall_mem_cons] at henvs
    obtain ⟨db₁, hdb₁, h₁, hviews₁⟩ := run_reopen_once hdb h henvs.1.1 henvs.1.2
    obtain ⟨db', hdb', h', hviews'⟩ := ih hdb₁ h₁ henvs.2
    refine ⟨db', ?_, h', ?_⟩
    · rw [List.flatMap_cons, run_append]
      exact hdb'
    · rw [hviews', hviews₁, List.map_map, List.length_cons, Function.iterate_succ]

/-- **Closing and opening a clean database any number of times** keeps the names, the columns and
the rows of its tables; after an odd number of times the rows are in reverse order. -/
theorem run_reopen {s : Session} {db : Database} (hdb : s.database = some db) (h : db.Clean)
    {envs : List (Platform × Platform)} (henvs : ∀ e ∈ envs, e.1.Faithful ∧ e.2.Faithful) :
    ∃ db', (run Session.step s (envs.flatMap reopen)).database = some db' ∧ db'.Clean ∧
      db'.views = if Even envs.length then db.views else db.views.map TableView.reversed := by
  obtain ⟨db', hdb', h', hviews⟩ := run_reopen_views hdb h henvs
  refine ⟨db', hdb', h', ?_⟩
  split_ifs with heven
  · rw [hviews, TableView.reversed_involutive.iterate_even heven, List.map_id]
  · rw [hviews, TableView.reversed_involutive.iterate_odd (Nat.not_even_iff_odd.mp heven)]

theorem run_reopen_people :
    ∃ db', (run Session.step (run Session.step startedSession peopleActions)
        (([(.epoch, .epoch), (.epoch, .epoch), (.epoch, .epoch)] :
          List (Platform × Platform)).flatMap reopen)).database = some db' ∧ db'.Clean ∧
      db'.views = if Even 3 then peopleStore.db.views
        else peopleStore.db.views.map TableView.reversed := by
  have hclean : peopleStore.db.Clean := by decide
  refine run_reopen rfl hclean fun e he => ?_
  obtain rfl : e = (.epoch, .epoch) := List.eq_of_mem_replicate (n := 3) he
  exact ⟨Platform.epoch_faithful, Platform.epoch_faithful⟩

/-! ### Backups -/

/-- **A backup of a clean database can be opened**, after any actions that leave its file alone: the
tables are those of the time of the backup, with the rows reversed. -/
theorem open_after_backup {s : Session} {db : Database} (hdb : s.database = some db) (h : db.Clean)
    {p q : Platform} (hp : p.Faithful) (hq : q.Faithful) (t : Tm) (backupDir : CString)
    {actions : List Action} (hactions : ∀ a ∈ actions, dbBackupPath t backupDir ∉ a.targets) :
    ∃ db', (run Session.step s (.backupDatabase p t backupDir :: actions ++
        [.openDatabase q (dbBackupPath t backupDir)])).database = some db' ∧
      db'.Clean ∧ db'.views = db.views.map TableView.reversed := by
  rw [run_append]
  refine openDatabase_clean hp hq h ?_
  -- the file of the backup is not among the targets of the actions
  rw [run_cons, Session.run_files _ hactions]
  show (s.backupDatabase p t backupDir).files _ = _
  rw [Session.backupDatabase, hdb]
  exact dbSaveTo_files hp h _ _ _

/-- Midnight, at the beginning of 1970. -/
def epochTm : Tm := ⟨70, 0, 1, 0, 0, 0⟩

/-- A record is deleted after the backup, and the database is closed. -/
theorem open_after_backup_people :
    ∃ db', (run Session.step (run Session.step startedSession peopleActions)
        ([.backupDatabase .epoch epochTm (cstr "old"), .call (.tableDelete 0 7),
            .closeDatabase .epoch 121] ++
          [.openDatabase .epoch (dbBackupPath epochTm (cstr "old"))])).database = some db' ∧
      db'.Clean ∧ db'.views = peopleStore.db.views.map TableView.reversed := by
  have hclean : peopleStore.db.Clean := by decide
  have hactions : ∀ a ∈ ([.call (.tableDelete 0 7), .closeDatabase .epoch 121] : List Action),
      dbBackupPath epochTm (cstr "old") ∉ a.targets := by
    rw [List.forall_mem_cons, List.forall_mem_singleton]
    exact ⟨List.not_mem_nil, List.mem_singleton.not.mpr (by decide)⟩
  exact open_after_backup rfl hclean Platform.epoch_faithful Platform.epoch_faithful epochTm
    (cstr "old") hactions

end Luminix
