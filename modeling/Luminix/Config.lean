import Luminix.Backup
import Luminix.CLib.Scan
import Luminix.CLib.Stream
import Luminix.CLib.Words
import Luminix.Platform

/-!
# The configuration

`save_config` and `load_config` of `utils.c`.  The keys that they write and compare are listed as
`ConfigKey`, in their order.
-/

namespace Luminix

open CLib

/-- A value of an `int`. -/
abbrev CInt : Type := { n : Int // IsInt n }

/-- `atoi`, which returns an `int`. -/
def atoiInt (l : List UInt8) : CInt := ⟨atoi l, isInt_intWrap _⟩

def maxPathLen : Nat := 256
def logLevelInfo : Int := 1

/-- `Config`.  The path is in a buffer of its own. -/
structure Config where
  defaultDatabasePath : CString
  path_lt : defaultDatabasePath.length < maxPathLen
  autoSave : CInt
  autoBackup : CInt
  maxHistorySize : CInt
  enableColors : CInt
  logLevel : CInt
  maxCacheSize : CInt
  deriving DecidableEq

/-- The defaults of `load_config` and `create_default_config`. -/
def defaultConfig : Config where
  defaultDatabasePath := cstr "./databases"
  path_lt := by decide
  autoSave := ⟨1, by decide⟩
  autoBackup := ⟨1, by decide⟩
  maxHistorySize := ⟨100, by decide⟩
  enableColors := ⟨1, by decide⟩
  logLevel := ⟨logLevelInfo, by decide⟩
  maxCacheSize := ⟨1000, by decide⟩

/-- The keys of the file. -/
inductive ConfigKey
  | defaultDatabasePath
  | autoSave
  | autoBackup
  | maxHistorySize
  | enableColors
  | logLevel
  | maxCacheSize
  deriving DecidableEq

namespace ConfigKey

/-- In the order in which they are written and compared. -/
def all : List ConfigKey :=
  [defaultDatabasePath, autoSave, autoBackup, maxHistorySize, enableColors, logLevel, maxCacheSize]

def name : ConfigKey → List UInt8
  | defaultDatabasePath => ascii "default_database_path"
  | autoSave => ascii "auto_save"
  | autoBackup => ascii "auto_backup"
  | maxHistorySize => ascii "max_history_size"
  | enableColors => ascii "enable_colors"
  | logLevel => ascii "log_level"
  | maxCacheSize => ascii "max_cache_size"

end ConfigKey

namespace Config

/-- What is printed behind a key. -/
def valueText (c : Config) : ConfigKey → List UInt8
  | .defaultDatabasePath => c.defaultDatabasePath.bytes
  | .autoSave => decimal c.autoSave
  | .autoBackup => decimal c.autoBackup
  | .maxHistorySize => decimal c.maxHistorySize
  | .enableColors => decimal c.enableColors
  | .logLevel => decimal c.logLevel
  | .maxCacheSize => decimal c.maxCacheSize

/-- What a value that is read behind a key sets. -/
def set (c : Config) (value : List UInt8) : ConfigKey → Config
  | .defaultDatabasePath =>
    { c with
      defaultDatabasePath := (CString.ofBytes value).truncate (maxPathLen - 1)
      path_lt := Nat.lt_of_le_pred (by decide) (CString.length_truncate_le _ _) }
  | .autoSave => { c with autoSave := atoiInt value }
  | .autoBackup => { c with autoBackup := atoiInt value }
  | .maxHistorySize => { c with maxHistorySize := atoiInt value }
  | .enableColors => { c with enableColors := atoiInt value }
  | .logLevel => { c with logLevel := atoiInt value }
  | .maxCacheSize => { c with maxCacheSize := atoiInt value }

end Config

/-! ### Writing -/

/-- A line with a key and its value. -/
def configLine (name value : List UInt8) : List UInt8 := name ++ ascii " = " ++ value ++ [10]

/-- What `save_config` prints. -/
def configText (c : Config) : List UInt8 :=
  ascii "# Database Configuration File\n\n" ++
    ConfigKey.all.flatMap fun key => configLine key.name (c.valueText key)

/-- `save_config`. -/
def saveConfig (p : Platform) (files : Files) (filename : Option CString) (config : Option Config) :
    Int × Files :=
  match filename, config with
  | some filename, some config =>
    if p.opensForWriting then (1, Function.update files filename (some (configText config)))
    else (0, files)
  | _, _ => (0, files)

/-! ### Reading -/

/-- The two texts of `sscanf (trimmed, "%63[^=]=%127[^\n]", key, value)`, if it returns two. -/
def scanKeyValue (trimmed : List UInt8) : Option (List UInt8 × List UInt8) := do
  let (key, r) ← scanSet 63 (· ≠ 61) trimmed
  match r with
  | 61 :: r => do
    let (value, _) ← scanSet 127 (· ≠ 10) r
    some (key, value)
  | _ => none

/-- The body of the loop in `load_config`, for a text that `fgets` has put into `line`. -/
def readConfigLine (config : Config) (line : List UInt8) : Config :=
  let trimmed := strip isSpace (CString.ofBytes (line.takeWhile (· ≠ 10))).bytes
  if trimmed = [] ∨ trimmed.head? = some 35 then config
  else
    match scanKeyValue trimmed with
    | none => config
    | some (key, value) =>
      match ConfigKey.all.find? fun k => strip isSpace key = k.name with
      | none => config
      | some k => config.set (strip isSpace value) k

/-- The size of a `Config`. -/
def sizeofConfig : Nat := maxPathLen + 6 * 4

/-- `create_default_config`. -/
def createDefaultConfig (p : Platform) : Option Config :=
  if p.malloc sizeofConfig then some defaultConfig else none

/-- `load_config`; `opens` says whether the file can be opened once more after `file_exists`. -/
def loadConfig (p : Platform) (opens : Bool) (files : Files) (filename : Option CString) :
    Option Config :=
  match filename.bind files with
  | none => createDefaultConfig p
  | some file =>
    if p.malloc sizeofConfig then
      if opens then some ((fileLines 256 file).foldl readConfigLine defaultConfig)
      else createDefaultConfig p
    else none

end Luminix
